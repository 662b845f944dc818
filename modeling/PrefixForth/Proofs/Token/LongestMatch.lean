import Mathlib.Computability.Language
import PrefixForth.Proofs.Token.Spelling

/-!
# Lexing by longest match

`Pattern.language` reads a pattern as a regular language over bytes, with the operations of
languages: a class denotes the texts of one byte in it, whatever the byte, and repetition is the
Kleene star.

`Wins rs s r w` says which of the rules `rs` counts at the start of the text `s`: the lexeme `w` is
the longest non-empty prefix of `s` in the language of any of them, and `r` is the first rule that
matches all of `w`. There is at most one such rule and lexeme (`Wins.unique`), and there is one
unless no rule matches any non-empty prefix (`Unmatched`). The matcher, which tries one rule after
the other and goes by derivatives, finds it (`bestMatch_eq_some_iff`, `bestMatch_eq_none_iff`).

`Lexes` runs this rule through a whole text.

Main statement: the scanner handles at each place the lexeme that wins there, it fails for the three
reasons exactly where the rule says so, and the tokens of a text are those of the run
(`scanner_takes_longest_match`).
-/

namespace PrefixForth

open Computability

namespace Pattern

/-! ### Patterns as languages -/

/-- The regular language that a pattern denotes. -/
def language : Pattern → Language UInt8
  | never => 0
  | empty => 1
  | oneOf cls => { s | ∃ b, cls b = true ∧ s = [b] }
  | seq p q => p.language * q.language
  | alt p q => p.language + q.language
  | many p => p.language∗

variable {p : Pattern} {s : Bytes}

/-- A text of a repetition is cut into texts of what is repeated. -/
theorem matches_many_iff :
    Matches (many p) s ↔ ∃ parts : List Bytes, s = parts.flatten ∧ ∀ u ∈ parts, Matches p u := by
  constructor
  · intro h
    generalize hr : many p = r at h
    induction h with
    | empty | oneOf _ | seq _ _ | left _ | right _ => cases hr
    | done => exact ⟨[], rfl, nofun⟩
    | @more _ u v hu _ _ ih =>
      cases hr
      obtain ⟨parts, rfl, hparts⟩ := ih rfl
      exact ⟨u :: parts, rfl, by simpa using ⟨hu, hparts⟩⟩
  · rintro ⟨parts, rfl, hparts⟩
    induction parts with
    | nil => exact .done
    | cons u parts ih =>
      rw [List.forall_mem_cons] at hparts
      exact .more hparts.1 (ih hparts.2)

/-- The texts that match a pattern are those of its language. -/
theorem mem_language_iff : s ∈ p.language ↔ Matches p s := by
  induction p generalizing s with
  | never => simp [language]
  | empty => simp [language]
  | oneOf cls => exact matches_oneOf_iff.symm
  | seq p q ihp ihq =>
    rw [language, Language.mem_mul, matches_seq_iff]
    simp only [ihp, ihq]
    constructor
    · rintro ⟨u, hu, v, hv, rfl⟩
      exact ⟨u, v, rfl, hu, hv⟩
    · rintro ⟨u, v, rfl, hu, hv⟩
      exact ⟨u, hu, v, hv, rfl⟩
  | alt p q ihp ihq => rw [language, Language.mem_add, ihp, ihq, matches_alt_iff]
  | many p ih =>
    rw [language, Language.mem_kstar, matches_many_iff]
    simp only [ih]

end Pattern

/-! ### The rule that wins -/

/-- Of the rules, `r` counts for the start of the text `s`, and `w` is its lexeme. -/
structure Wins (rs : List LexicalRule) (s : Bytes) (r : LexicalRule) (w : Bytes) : Prop where
  nonempty : w ≠ []
  starts : w <+: s
  matched : w ∈ r.pattern.language
  longest : ∀ r' ∈ rs, ∀ w', w' <+: s → w' ∈ r'.pattern.language → w'.length ≤ w.length
  first : ∃ before after, rs = before ++ r :: after ∧ ∀ r' ∈ before, w ∉ r'.pattern.language

/-- No rule matches any non-empty prefix of the text. -/
def Unmatched (rs : List LexicalRule) (s : Bytes) : Prop :=
  ∀ r ∈ rs, ∀ w, w ≠ [] → w <+: s → w ∉ r.pattern.language

section Wins

variable {rs : List LexicalRule} {s w w' : Bytes} {r r' : LexicalRule} {n : Nat}

theorem Wins.mem (h : Wins rs s r w) : r ∈ rs := by
  obtain ⟨before, after, rfl, -⟩ := h.first
  simp

private theorem Wins.not_unmatched (h : Wins rs s r w) : ¬Unmatched rs s := fun hnone =>
  hnone r h.mem w h.nonempty h.starts h.matched

/-- At most one rule wins, with one lexeme. -/
theorem Wins.unique (h : Wins rs s r w) (h' : Wins rs s r' w') : r = r' ∧ w = w' := by
  have hlength : w.length = w'.length :=
    Nat.le_antisymm (h'.longest r h.mem w h.starts h.matched)
      (h.longest r' h'.mem w' h'.starts h'.matched)
  have hstarts := List.prefix_of_prefix_length_le h.starts h'.starts hlength.le
  obtain rfl : w = w' := hstarts.eq_of_length hlength
  refine ⟨?_, rfl⟩
  obtain ⟨before, after, rfl, hbefore⟩ := h.first
  obtain ⟨before', after', heq, hbefore'⟩ := h'.first
  -- if one of the rules stood before the other, the other would not be the first one to match
  rcases List.append_eq_append_iff.mp heq with ⟨between, rfl, hrest⟩ | ⟨between, rfl, hrest⟩
  · cases between with
    | nil => exact (List.cons.inj hrest).1
    | cons x between =>
      obtain ⟨rfl, -⟩ := List.cons.inj hrest
      exact absurd h.matched (hbefore' r (by simp))
  · cases between with
    | nil => exact (List.cons.inj hrest).1.symm
    | cons x between =>
      obtain ⟨rfl, -⟩ := List.cons.inj hrest
      exact absurd h'.matched (hbefore r' (by simp))

/-! ### The matcher finds it -/

/-- A pattern that matches some prefix has a longest match, which is not shorter. -/
theorem Pattern.exists_longest {p : Pattern} (hw : w <+: s) (hm : w ∈ p.language) :
    ∃ n, p.longest s = Option.some n ∧ w.length ≤ n := by
  rw [mem_language_iff, List.prefix_iff_eq_take.mp hw] at hm
  rcases hlong : p.longest s with _ | n
  · exact absurd hm (longest_eq_none_iff.mp hlong w.length hw.length_le)
  · exact ⟨n, rfl, (longest_eq_some_iff.mp hlong).2.2 w.length hw.length_le hm⟩

/-- The first rule counts if no later one has a longer match, and a later one only if its match is
longer. -/
theorem bestMatch_cons_eq_some_iff {r₀ : LexicalRule} :
    bestMatch (r₀ :: rs) s = some (r, n) ↔
      (r = r₀ ∧ 0 < n ∧ r₀.pattern.longest s = some n ∧
        ∀ r' m, bestMatch rs s = some (r', m) → m ≤ n) ∨
      (bestMatch rs s = some (r, n) ∧ ∀ m, r₀.pattern.longest s = some m → m < n) := by
  rw [bestMatch]
  split
  · rename_i k r' m hlong hrest
    rw [hlong, hrest]
    constructor
    · intro h
      split at h
      · rename_i hle
        cases h
        refine .inl ⟨rfl, Nat.succ_pos k, rfl, fun r' m h => ?_⟩
        cases h
        exact hle
      · rename_i hlt
        cases h
        refine .inr ⟨rfl, fun m h => ?_⟩
        cases h
        omega
    · rintro (⟨rfl, -, h, hle⟩ | ⟨h, hlt⟩)
      · cases h
        rw [if_pos (hle r' m rfl)]
      · cases h
        rw [if_neg (Nat.not_le.mpr (hlt _ rfl))]
  · rename_i k hlong hrest
    rw [hlong, hrest]
    constructor
    · intro h
      cases h
      exact .inl ⟨rfl, Nat.succ_pos k, rfl, fun _ _ h => by cases h⟩
    · rintro (⟨rfl, -, h, -⟩ | ⟨h, -⟩)
      · cases h
        rfl
      · cases h
  · rename_i hboth hfirst
    -- the first rule matches nothing but the empty prefix, if anything
    have hzero : ∀ m, r₀.pattern.longest s = some m → m = 0 := by
      intro m hm
      cases m with
      | zero => rfl
      | succ m =>
        rcases hbest : bestMatch rs s with _ | ⟨r', k⟩
        · exact (hfirst m hm hbest).elim
        · exact (hboth m r' k hm hbest).elim
    constructor
    · intro h
      refine .inr ⟨h, fun m hm => ?_⟩
      rw [hzero m hm]
      exact pos_of_bestMatch h
    · rintro (⟨-, hpos, hlong, -⟩ | ⟨h, -⟩)
      · exact absurd (hzero n hlong) (Nat.ne_of_gt hpos)
      · exact h

/-- Whatever non-empty prefix a rule matches, the match that counts is not shorter. -/
theorem exists_bestMatch (hr : r ∈ rs) (hne : w ≠ []) (hw : w <+: s)
    (hm : w ∈ r.pattern.language) : ∃ r' n, bestMatch rs s = some (r', n) ∧ w.length ≤ n := by
  induction rs with
  | nil => cases hr
  | cons r₀ rs ih =>
    -- the first rule counts with a match as long as any other
    have hfirst : ∀ n, r₀.pattern.longest s = some n → w.length ≤ n →
        (∀ r' m, bestMatch rs s = some (r', m) → m ≤ n) →
        ∃ r' n, bestMatch (r₀ :: rs) s = some (r', n) ∧ w.length ≤ n := by
      intro n hlong hle hmax
      have hpos : 0 < n := Nat.lt_of_lt_of_le (List.length_pos_iff.mpr hne) hle
      exact ⟨r₀, n, bestMatch_cons_eq_some_iff.mpr (.inl ⟨rfl, hpos, hlong, hmax⟩), hle⟩
    rcases List.mem_cons.mp hr with rfl | hr
    · obtain ⟨n, hlong, hle⟩ := Pattern.exists_longest hw hm
      by_cases hmax : ∀ r' m, bestMatch rs s = some (r', m) → m ≤ n
      · exact hfirst n hlong hle hmax
      · push Not at hmax
        obtain ⟨r', m, hbest, hlt⟩ := hmax
        refine ⟨r', m, bestMatch_cons_eq_some_iff.mpr (.inr ⟨hbest, fun k hk => ?_⟩), by omega⟩
        rw [hlong] at hk
        cases hk
        exact hlt
    · obtain ⟨r', m, hbest, hle⟩ := ih hr
      by_cases hlater : ∀ k, r₀.pattern.longest s = some k → k < m
      · exact ⟨r', m, bestMatch_cons_eq_some_iff.mpr (.inr ⟨hbest, hlater⟩), hle⟩
      · push Not at hlater
        obtain ⟨k, hlong, hmk⟩ := hlater
        refine hfirst k hlong (Nat.le_trans hle hmk) fun r'' m' h => ?_
        rw [hbest] at h
        cases h
        exact hmk

/-- The rule that counts is the first one to match its lexeme. -/
theorem first_of_bestMatch (h : bestMatch rs s = some (r, n)) :
    ∃ before after, rs = before ++ r :: after ∧ ∀ r' ∈ before, s.take n ∉ r'.pattern.language := by
  induction rs with
  | nil => cases h
  | cons r₀ rs ih =>
    rcases bestMatch_cons_eq_some_iff.mp h with ⟨rfl, -⟩ | ⟨hrest, hlater⟩
    · exact ⟨[], rs, rfl, nofun⟩
    · obtain ⟨before, after, rfl, hbefore⟩ := ih hrest
      refine ⟨r₀ :: before, after, rfl, List.forall_mem_cons.mpr ⟨fun hm => ?_, hbefore⟩⟩
      obtain ⟨m, hlong, hle⟩ := Pattern.exists_longest (List.take_prefix n s) hm
      have hlength : (s.take n).length = n := List.length_take_of_le (length_of_bestMatch hrest)
      have := hlater m hlong
      omega

/-- There is no best match exactly where no rule matches. -/
theorem bestMatch_eq_none_iff : bestMatch rs s = none ↔ Unmatched rs s := by
  constructor
  · intro hnone r hr w hne hw hm
    obtain ⟨r', n, hbest, -⟩ := exists_bestMatch hr hne hw hm
    rw [hnone] at hbest
    cases hbest
  · intro hunmatched
    rcases hbest : bestMatch rs s with _ | ⟨r, n⟩
    · rfl
    · have hne : s.take n ≠ [] := by
        have hpos := pos_of_bestMatch hbest
        have hle := length_of_bestMatch hbest
        rw [← List.length_pos_iff, List.length_take]
        omega
      exact absurd (Pattern.mem_language_iff.mpr (matches_of_bestMatch hbest))
        (hunmatched r (mem_of_bestMatch hbest) _ hne (List.take_prefix n s))

/-- The best match wins: it is the longest, and by the first rule among those. -/
theorem wins_of_bestMatch (h : bestMatch rs s = some (r, n)) : Wins rs s r (s.take n) := by
  have hpos := pos_of_bestMatch h
  have hlength : (s.take n).length = n := List.length_take_of_le (length_of_bestMatch h)
  refine ⟨?_, List.take_prefix n s, Pattern.mem_language_iff.mpr (matches_of_bestMatch h), ?_,
    first_of_bestMatch h⟩
  · rw [← List.length_pos_iff, hlength]
    exact hpos
  · intro r' hr' w' hw' hm'
    rw [hlength]
    by_cases hne : w' = []
    · simp [hne]
    · obtain ⟨r'', m, hbest, hle⟩ := exists_bestMatch hr' hne hw' hm'
      rw [h] at hbest
      cases hbest
      exact hle

/-- The matcher finds the rule that wins, with the length of its lexeme. -/
theorem bestMatch_eq_some_iff :
    bestMatch rs s = some (r, n) ↔ ∃ w, Wins rs s r w ∧ w.length = n := by
  constructor
  · intro h
    exact ⟨_, wins_of_bestMatch h, List.length_take_of_le (length_of_bestMatch h)⟩
  · rintro ⟨w, hw, rfl⟩
    rcases hbest : bestMatch rs s with _ | ⟨r', m⟩
    · exact absurd (bestMatch_eq_none_iff.mp hbest) hw.not_unmatched
    · obtain ⟨rfl, rfl⟩ := hw.unique (wins_of_bestMatch hbest)
      rw [List.length_take_of_le (length_of_bestMatch hbest)]

/-- Either a rule wins or none matches. -/
theorem exists_wins_iff : (∃ r w, Wins rs s r w) ↔ ¬Unmatched rs s := by
  refine ⟨fun ⟨r, w, h⟩ => h.not_unmatched, fun h => ?_⟩
  rw [← bestMatch_eq_none_iff, ← ne_eq, Option.ne_none_iff_exists'] at h
  obtain ⟨⟨r, n⟩, hbest⟩ := h
  exact ⟨r, _, wins_of_bestMatch hbest⟩

end Wins

/-! ### Scanning -/

namespace Cursor

/-- The place after the lexeme `w`. -/
def past (c : Cursor) (w : Bytes) : Cursor :=
  c.advance w.length

/-- What the action of a rule makes of the lexeme `w`: blanks are passed over, tokens are given with
their places, and an error stays where its lexeme starts. -/
def handle (c : Cursor) (w : Bytes) : LexicalAction → Reading × Cursor
  | .skip => (c.past w).scan
  | .token kind => (.token ⟨kind, w, c.position⟩, c.past w)
  | .word => (.token ⟨wordKind w, w, c.position⟩, c.past w)
  | .malformed fault => (.failed ⟨.numeral fault w, c.position⟩, c)
  | .unterminated => (.failed ⟨.unterminated w, c.position⟩, c)

variable {c : Cursor} {r : LexicalRule} {w : Bytes}

/-- A scan does what the winning rule says. -/
theorem scan_of_wins (h : Wins lexicalRules c.rest r w) : c.scan = c.handle w r.action := by
  have hbest := bestMatch_eq_some_iff.mpr ⟨w, h, rfl⟩
  have htake : c.rest.take w.length = w := (List.prefix_iff_eq_take.mp h.starts).symm
  rw [scan]
  split
  · rename_i hnone
    rw [hbest] at hnone
    cases hnone
  · rename_i r' n hsome
    rw [hbest] at hsome
    cases hsome
    cases haction : r.action <;> simp [handle, past, lexeme, htake]

/-- Without a match, a scan is at the end of the text or fails. -/
theorem scan_of_unmatched (h : Unmatched lexicalRules c.rest) :
    c.scan = (if c.rest = [] then .ended else .failed c.unrecognized, c) := by
  have hbest := bestMatch_eq_none_iff.mpr h
  rw [scan]
  split
  · rfl
  · rename_i hsome
    rw [hbest] at hsome
    cases hsome

private theorem length_past_lt (h : Wins lexicalRules c.rest r w) :
    (c.past w).rest.length < c.rest.length :=
  length_advance_lt (bestMatch_eq_some_iff.mpr ⟨w, h, rfl⟩)

/-- Scanning never goes back. -/
theorem length_scan_le (c : Cursor) : c.scan.2.rest.length ≤ c.rest.length := by
  fun_induction scan c with
  | case1 c hnone => exact Nat.le_refl _
  | case2 c r n hbest haction ih => exact Nat.le_trans ih (length_advance_lt hbest).le
  | case3 c r n hbest kind haction => exact (length_advance_lt hbest).le
  | case4 c r n hbest haction => exact (length_advance_lt hbest).le
  | case5 c r n hbest fault haction => exact Nat.le_refl _
  | case6 c r n hbest haction => exact Nat.le_refl _

/-- The tokens from a place on depend on what is scanned there only. -/
theorem tokens_congr {c' : Cursor} (h : c.scan = c'.scan) : c.tokens = c'.tokens := by
  rcases hscan : c'.scan with ⟨reading, c''⟩
  rw [hscan] at h
  cases reading with
  | token t => rw [tokens_of_token h, tokens_of_token hscan]
  | ended => rw [tokens_of_ended h, tokens_of_ended hscan]
  | failed e => rw [tokens_of_failed h, tokens_of_failed hscan]

/-- A rule that gives an error wins at the place, or no rule matches there. -/
inductive Stuck (c : Cursor) : LexicalError → Prop
  | unrecognized (more : c.rest ≠ []) (unmatched : Unmatched lexicalRules c.rest) :
      Stuck c c.unrecognized
  | malformed {r : LexicalRule} {w : Bytes} {fault : NumeralFault}
      (wins : Wins lexicalRules c.rest r w) (action : r.action = .malformed fault) :
      Stuck c ⟨.numeral fault w, c.position⟩
  | unterminated {r : LexicalRule} {w : Bytes} (wins : Wins lexicalRules c.rest r w)
      (action : r.action = .unterminated) : Stuck c ⟨.unterminated w, c.position⟩

/-- The scanner fails at a place exactly if it is stuck there. -/
theorem scan_eq_failed_iff {e : LexicalError} : c.scan = (.failed e, c) ↔ Stuck c e := by
  constructor
  · intro h
    by_cases hunmatched : Unmatched lexicalRules c.rest
    · rw [scan_of_unmatched hunmatched] at h
      split at h
      · cases h
      · rename_i hmore
        cases h
        exact .unrecognized hmore hunmatched
    · obtain ⟨r, w, hwins⟩ := exists_wins_iff.mpr hunmatched
      rw [scan_of_wins hwins] at h
      cases haction : r.action with
      | skip =>
        -- blanks are left behind, so an error after them is met further on
        rw [haction, handle] at h
        have hle := length_scan_le (c.past w)
        rw [h] at hle
        exact absurd (length_past_lt hwins) (Nat.not_lt.mpr hle)
      | token kind | word =>
        rw [haction] at h
        cases h
      | malformed fault =>
        rw [haction] at h
        cases h
        exact .malformed hwins haction
      | unterminated =>
        rw [haction] at h
        cases h
        exact .unterminated hwins haction
  · intro h
    cases h with
    | unrecognized more unmatched => rw [scan_of_unmatched unmatched, if_neg more]
    | malformed wins action => rw [scan_of_wins wins, action, handle]
    | unterminated wins action => rw [scan_of_wins wins, action, handle]

end Cursor

/-! ### Whole texts -/

/-- The tokens from a place on, and the error that ends them, if one does: at each place the lexeme
that wins is handled by its rule. -/
inductive Lexes : Cursor → List Token → Option LexicalError → Prop
  | ended (p : Position) : Lexes ⟨[], p⟩ [] none
  | stuck {c : Cursor} {e : LexicalError} (here : c.Stuck e) : Lexes c [] (some e)
  | skip {c : Cursor} {r : LexicalRule} {w : Bytes} {ts : List Token} {error : Option LexicalError}
      (wins : Wins lexicalRules c.rest r w) (action : r.action = .skip)
      (rest : Lexes (c.past w) ts error) : Lexes c ts error
  | token {c : Cursor} {r : LexicalRule} {w : Bytes} {kind : TokenKind} {ts : List Token}
      {error : Option LexicalError} (wins : Wins lexicalRules c.rest r w)
      (action : r.action.Yields w kind) (rest : Lexes (c.past w) ts error) :
      Lexes c (⟨kind, w, c.position⟩ :: ts) error

namespace Lexes

variable {c : Cursor} {ts : List Token} {error : Option LexicalError}

/-- A run of the rules from a place on is what the scanner makes of it. -/
theorem tokens_eq (h : Lexes c ts error) : c.tokens = (ts, error) := by
  induction h with
  | ended p =>
    have hunmatched : Unmatched lexicalRules [] := fun r _ w hne hw =>
      absurd (List.prefix_nil.mp hw) hne
    have hscan : Cursor.scan ⟨[], p⟩ = (.ended, ⟨[], p⟩) := by
      rw [Cursor.scan_of_unmatched hunmatched, if_pos rfl]
    exact Cursor.tokens_of_ended hscan
  | stuck here => exact Cursor.tokens_of_failed (Cursor.scan_eq_failed_iff.mpr here)
  | @skip c r w ts error wins action _ ih =>
    have hscan : c.scan = (c.past w).scan := by rw [Cursor.scan_of_wins wins, action, Cursor.handle]
    rw [← ih, Cursor.tokens_congr hscan]
  | @token c r w kind ts error wins action _ ih =>
    have hscan : c.scan = (.token ⟨kind, w, c.position⟩, c.past w) := by
      rw [Cursor.scan_of_wins wins]
      cases haction : r.action <;> rw [haction] at action <;> cases action <;> rfl
    rw [Cursor.tokens_of_token hscan, ih]

/-- The rules run from every place on to an end. -/
theorem of_tokens (c : Cursor) : Lexes c c.tokens.1 c.tokens.2 := by
  -- by induction on the bytes that are left: every lexeme takes some of them
  induction hn : c.rest.length using Nat.strong_induction_on generalizing c with
  | _ n ih =>
  subst hn
  by_cases hunmatched : Unmatched lexicalRules c.rest
  · by_cases hend : c.rest = []
    · obtain ⟨rest, p⟩ := c
      obtain rfl : rest = [] := hend
      rw [(Lexes.ended p).tokens_eq]
      exact .ended p
    · have hstuck : Lexes c [] (some c.unrecognized) := .stuck (.unrecognized hend hunmatched)
      rw [hstuck.tokens_eq]
      exact hstuck
  · obtain ⟨r, w, hwins⟩ := exists_wins_iff.mpr hunmatched
    have hrest := ih _ (Cursor.length_past_lt hwins) (c.past w) rfl
    have hall : ∃ ts error, Lexes c ts error := by
      cases haction : r.action with
      | skip => exact ⟨_, _, .skip hwins haction hrest⟩
      | token kind => exact ⟨_, _, .token hwins (by rw [haction]; rfl) hrest⟩
      | word => exact ⟨_, _, .token hwins (by rw [haction]; rfl) hrest⟩
      | malformed fault => exact ⟨_, _, .stuck (.malformed hwins haction)⟩
      | unterminated => exact ⟨_, _, .stuck (.unterminated hwins haction)⟩
    obtain ⟨ts, error, h⟩ := hall
    rwa [h.tokens_eq]

end Lexes

/-- **Longest match, then first rule.** The tokens of a text and its error are those of a run in
which at each place the lexeme that wins is handled by its rule. At every place the scanner handles
that lexeme, if there is one: the longest non-empty prefix of the bytes left that any rule matches,
by the first rule that matches it. It meets an unrecognized character exactly if bytes are left and
no rule matches a non-empty prefix of them, and a malformed numeral or an unterminated string
exactly if a rule for one of these wins. -/
theorem scanner_takes_longest_match (s : Bytes) :
    (∀ ts error, tokenize s = (ts, error) ↔ Lexes (.ofText s) ts error) ∧
    ∀ c : Cursor,
      (∀ r w, Wins lexicalRules c.rest r w → c.scan = c.handle w r.action) ∧
      ((∃ r w, Wins lexicalRules c.rest r w) ↔ ¬Unmatched lexicalRules c.rest) ∧
      ((∃ e, c.scan = (.failed e, c) ∧ e.fault.reason = .unrecognizedCharacter) ↔
        c.rest ≠ [] ∧ Unmatched lexicalRules c.rest) ∧
      ((∃ e, c.scan = (.failed e, c) ∧ e.fault.reason = .malformedNumeral) ↔
        ∃ r w fault, Wins lexicalRules c.rest r w ∧ r.action = .malformed fault) ∧
      ((∃ e, c.scan = (.failed e, c) ∧ e.fault.reason = .unterminatedString) ↔
        ∃ r w, Wins lexicalRules c.rest r w ∧ r.action = .unterminated) := by
  refine ⟨fun ts error => ⟨fun h => ?_, Lexes.tokens_eq⟩, fun c => ⟨fun r w => Cursor.scan_of_wins,
    exists_wins_iff, ?_, ?_, ?_⟩⟩
  · have hrun := Lexes.of_tokens (.ofText s)
    rw [tokenize] at h
    rwa [h] at hrun
  all_goals
    -- the three reasons are those of the three ways to be stuck
    simp only [Cursor.scan_eq_failed_iff]
    constructor
  · rintro ⟨e, here, hreason⟩
    cases here with
    | unrecognized more unmatched => exact ⟨more, unmatched⟩
    | malformed | unterminated => cases hreason
  · rintro ⟨more, unmatched⟩
    exact ⟨_, .unrecognized more unmatched, rfl⟩
  · rintro ⟨e, here, hreason⟩
    cases here with
    | malformed wins action => exact ⟨_, _, _, wins, action⟩
    | unrecognized | unterminated => cases hreason
  · rintro ⟨r, w, fault, wins, action⟩
    exact ⟨_, .malformed wins action, rfl⟩
  · rintro ⟨e, here, hreason⟩
    cases here with
    | unterminated wins action => exact ⟨_, _, wins, action⟩
    | unrecognized | malformed => cases hreason
  · rintro ⟨r, w, wins, action⟩
    exact ⟨_, .unterminated wins action, rfl⟩

/-- The exponent is taken into the real, though a mark without digits would match too; what is left
is a numeral without leading digits. -/
theorem scanner_takes_longest_match_exponent :
    Lexes (.ofText (utf8 "1.2e3.4")) [⟨.realLiteral, utf8 "1.2e3", ⟨1, 1⟩⟩]
      (some ⟨.numeral .noLeadingDigit (utf8 ".4"), ⟨1, 6⟩⟩) ∧
    ∃ r w fault, Wins lexicalRules (utf8 ".4") r w ∧ r.action = .malformed fault := by
  have htokens : tokenize (utf8 "1.2e3.4") = ([⟨.realLiteral, utf8 "1.2e3", ⟨1, 1⟩⟩],
      some ⟨.numeral .noLeadingDigit (utf8 ".4"), ⟨1, 6⟩⟩) := by decide +kernel
  have hscan : Cursor.scan ⟨utf8 ".4", ⟨1, 6⟩⟩ =
      (.failed ⟨.numeral .noLeadingDigit (utf8 ".4"), ⟨1, 6⟩⟩, ⟨utf8 ".4", ⟨1, 6⟩⟩) := by
    decide +kernel
  obtain ⟨hrun, hplace⟩ := scanner_takes_longest_match (utf8 "1.2e3.4")
  obtain ⟨-, -, -, hmalformed, -⟩ := hplace ⟨utf8 ".4", ⟨1, 6⟩⟩
  exact ⟨(hrun _ _).mp htokens, hmalformed.mp ⟨_, hscan, rfl⟩⟩

end PrefixForth
