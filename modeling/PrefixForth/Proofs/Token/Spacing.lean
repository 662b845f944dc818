import PrefixForth.Proofs.Token.Juxtaposition

/-!
# Lexemes with blanks between them

A lexeme that wins somewhere wins wherever a blank or a closing parenthesis follows it or the text
ends (`Wins.before_end`): a longer one would hold the blank or the parenthesis, and strings are the
only lexemes that hold any besides other bytes. Hence the lexemes of a text can be written down again
with other blanks between them.

`Spread ws s` says that the text `s` holds the texts `ws`, each with blanks after it and any two of
them apart. The main statement is `exists_tokenize_spread`: with blanks before it, such a text has
tokens of the same kinds and texts.
-/

namespace PrefixForth

open Pattern hiding some
open LexicalRule

/-! ### Where a lexeme ends -/

/-- The text can stand behind any lexeme without being taken for a part of it: nothing is left, or a
blank or a closing parenthesis is next. -/
def EndsLexeme (u : Bytes) : Prop :=
  ∀ b ∈ u.head?, isBlankByte b = true ∨ b = closingByte

/-- Of all rules for tokens, only those for strings let blanks in. -/
theorem avoids_blank {b : UInt8} (hb : isBlankByte b = true) {r : LexicalRule}
    (hr : r ∈ lexicalRules) (hskip : r.action ≠ .skip)
    (hstring : ¬(r.action = .token .stringLiteral ∨ r.action = .unterminated)) :
    r.pattern.avoids b = true := by
  have hall : ∀ b ∈ [(32 : UInt8), 9, 10, 13], ∀ r ∈ lexicalRules, r.action ≠ .skip →
      ¬(r.action = .token .stringLiteral ∨ r.action = .unterminated) →
      r.pattern.avoids b = true := by decide +kernel
  refine hall b ?_ r hr hskip hstring
  simpa [isBlankByte, or_assoc] using hb

section Boundary

variable {s u w : Bytes} {r : LexicalRule}

/-- A lexeme that is neither blank nor a string without end wins in front of such a text. -/
theorem Wins.before_end (h : Wins lexicalRules s r w) (hskip : r.action ≠ .skip)
    (hopen : r.action ≠ .unterminated) (hu : EndsLexeme u) : Wins lexicalRules (w ++ u) r w := by
  refine ⟨h.nonempty, List.prefix_append w u, h.matched, ?_, h.first⟩
  intro r' hr' w' hw' hm'
  by_contra hlt
  have hm := mem_language_iff.mp h.matched
  rw [mem_language_iff] at hm'
  have hstart : w <+: w' :=
    List.prefix_of_prefix_length_le (List.prefix_append w u) hw' (Nat.le_of_not_le hlt)
  obtain ⟨v, rfl⟩ := hstart
  obtain ⟨b, v, rfl⟩ : ∃ b v', v = b :: v' :=
    List.exists_cons_of_ne_nil fun hnil => hlt (by simp [hnil])
  -- the longer lexeme goes on with the blank or the parenthesis `b`
  have hb : isBlankByte b = true ∨ b = closingByte := by
    obtain ⟨x, hx⟩ := (List.prefix_append_right_inj w).mp hw'
    exact hu b (by simp [← hx])
  obtain ⟨c, w, rfl⟩ := List.exists_cons_of_ne_nil h.nonempty
  by_cases hskip' : r'.action = .skip
  · -- then all of it is blank, and so is the start of the lexeme that wins
    rw [pattern_of_skip r' hr' hskip', matches_some_oneOf_iff] at hm'
    have hc : isBlankByte c = true := hm'.2 c (by simp)
    exact not_matches_cons (isNever_derivative_blank hc h.mem hskip) hm
  · by_cases hstring : r'.action = .token .stringLiteral ∨ r'.action = .unterminated
    · have hc : c = quoteMark := by
        obtain ⟨body, -, heq | heq⟩ := string_of_matches hr' hstring hm'
        · exact (List.cons.inj heq).1
        · exact (List.cons.inj heq).1
      subst hc
      have haction := (action_of_quoteMark h.mem hm).resolve_right hopen
      obtain ⟨body, heq, hbody⟩ := spells_of_mem_lexicalRules h.mem hm (k := .stringLiteral)
        (by rw [haction]; rfl)
      rw [heq] at hm' hlt
      exact hlt (length_le_of_starts_closed hbody (List.prefix_append _ _) hr' hm')
    · rcases hb with hb | rfl
      · exact not_mem_of_avoids (avoids_blank hb hr' hskip' hstring) hm' (by simp)
      · rcases action_of_mem_closingByte hr' hm' (by simp) with heq | haction
        · simp at heq
        · exact hstring haction

end Boundary

/-! ### Lexemes apart -/

/-- Kind and text of a token, without its place. -/
def Token.look (t : Token) : TokenKind × Bytes :=
  (t.kind, t.text)

/-- The text is that of a token of the kind in some text. -/
def IsLexeme (k : TokenKind) (w : Bytes) : Prop :=
  ∃ s r, Wins lexicalRules s r w ∧ r.action.Yields w k

/-- A lexeme wins in front of a text that ends it. -/
theorem IsLexeme.exists_wins {k : TokenKind} {w u : Bytes} (h : IsLexeme k w) (hu : EndsLexeme u) :
    ∃ r, Wins lexicalRules (w ++ u) r w ∧ r.action.Yields w k := by
  obtain ⟨s, r, hwins, haction⟩ := h
  have hskip : r.action ≠ .skip := fun h => by rw [h] at haction; exact haction
  have hopen : r.action ≠ .unterminated := fun h => by rw [h] at haction; exact haction
  exact ⟨r, hwins.before_end hskip hopen hu, haction⟩

/-- The text holds the given ones in their order, each followed by blanks. Only after the last there
may be none. -/
inductive Spread : List Bytes → Bytes → Prop
  | nil : Spread [] []
  | cons {w gap : Bytes} {ws : List Bytes} {s : Bytes} (blank : ∀ b ∈ gap, isBlankByte b = true)
      (apart : ws ≠ [] → gap ≠ []) (rest : Spread ws s) : Spread (w :: ws) (w ++ (gap ++ s))

/-- Every token that is read is a lexeme of its kind. -/
theorem Lexes.isLexeme {c : Cursor} {ts : List Token} {error : Option LexicalError}
    (h : Lexes c ts error) : ∀ t ∈ ts, IsLexeme t.kind t.text := by
  induction h with
  | ended | stuck => simp
  | skip _ _ _ ih => exact ih
  | token wins action _ ih =>
    intro t ht
    rcases List.mem_cons.mp ht with rfl | ht
    · exact ⟨_, _, wins, action⟩
    · exact ih t ht

namespace Spread

theorem eq_nil {s : Bytes} (h : Spread [] s) : s = [] := by
  cases h
  rfl

private theorem exists_of_cons {w s : Bytes} {ws : List Bytes} (h : Spread (w :: ws) s) :
    ∃ gap s', s = w ++ (gap ++ s') ∧ (∀ b ∈ gap, isBlankByte b = true) ∧
      (ws ≠ [] → gap ≠ []) ∧ Spread ws s' := by
  cases h with
  | cons blank apart rest => exact ⟨_, _, rfl, blank, apart, rest⟩

/-- Lexemes that are kept apart are the tokens of the text. -/
theorem exists_lexes {ts : List Token} {s : Bytes} (h : Spread (ts.map Token.text) s)
    (hts : ∀ t ∈ ts, IsLexeme t.kind t.text) (p : Position) :
    ∃ us, Lexes ⟨s, p⟩ us none ∧ us.map Token.look = ts.map Token.look := by
  induction ts generalizing s p with
  | nil =>
    rw [h.eq_nil]
    exact ⟨[], .ended p, rfl⟩
  | cons t ts ih =>
    obtain ⟨gap, s, rfl, blank, apart, rest⟩ := h.exists_of_cons
    -- what follows the lexeme is a blank, or the text ends with it
    have hnext : EndsLexeme (gap ++ s) := by
      intro b hb
      rcases gap with _ | ⟨b', gap⟩
      · have hnil : ts.map Token.text = [] := not_not.mp fun hne => apart hne rfl
        rw [hnil] at rest
        simp [rest.eq_nil] at hb
      · obtain rfl : b' = b := by simpa using hb
        exact .inl (blank b' List.mem_cons_self)
    obtain ⟨r, hwins, haction⟩ := (hts t List.mem_cons_self).exists_wins hnext
    obtain ⟨us, hus, hlook⟩ :=
      ih rest (fun t ht => hts t (List.mem_cons_of_mem _ ht)) ((p.afterAll t.text).afterAll gap)
    refine ⟨⟨t.kind, t.text, p⟩ :: us, ?_, ?_⟩
    · refine .token hwins haction ?_
      rw [Cursor.past_append, Lexes.iff_tokens_eq, Cursor.tokens_blanks blank]
      exact Lexes.iff_tokens_eq.mp hus
    · simpa [Token.look] using hlook

end Spread

/-- The tokens of a text, written down with any blanks before, between and behind them, are the
tokens again. -/
theorem exists_tokenize_spread {s : Bytes} {ts : List Token} (h : tokenize s = (ts, none))
    {lead s' : Bytes} (hlead : ∀ b ∈ lead, isBlankByte b = true)
    (hs' : Spread (ts.map Token.text) s') :
    ∃ us, tokenize (lead ++ s') = (us, none) ∧ us.map Token.look = ts.map Token.look := by
  have hlexes : Lexes (.ofText s) ts none := Lexes.iff_tokens_eq.mpr h
  obtain ⟨us, hus, hlook⟩ := hs'.exists_lexes hlexes.isLexeme (Position.start.afterAll lead)
  refine ⟨us, ?_, hlook⟩
  have htokens := Cursor.tokens_blanks hlead s' .start
  exact htokens.trans (Lexes.iff_tokens_eq.mp hus)

end PrefixForth
