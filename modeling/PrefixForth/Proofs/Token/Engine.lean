import PrefixForth.Proofs.Token.Location
import PrefixForth.Proofs.Token.Spacing
import PrefixForth.Proofs.Tree.Relocation
import PrefixForth.Token.Engine

/-!
# Tokens by an engine

What is asked of a matching engine is said here, once and by name (`Engine.Lawful`). It accepts the
rules of the language and every text. It reports the lexemes that win, one after the other, until the
text ends or no rule matches; then, and for no other reason, it reports an error, at the first byte
that is left. Its positions are those of a reader who counts lines and columns. Only what is used is
asked for: nothing is said of the positions of line feeds, with which no token begins or ends.

With every such engine the tokens of a text, the error after them and the place just past the last
one are those of the lexer of this library, which finds the matches and counts the positions by itself
(`Engine.Lawful.exists_delivery`). So neither the message of an engine that refuses a text nor an error
that only an engine could have reaches anyone. The laws can be kept (`Engine.lawful_byRules`).

Main statement: `tokenize_locates_everything`.
-/

namespace PrefixForth

open Pattern (mem_language_iff not_matches_cons not_mem_of_avoids)

/-! ### What an engine reports -/

/-- From its byte number `i` on, the text is reported as the rules say. -/
inductive Reports (rs : List LexicalRule) (s : Bytes) :
    Nat → List Match → Option EngineError → Prop
  | ended : Reports rs s s.length [] none
  /-- No rule matches at a byte of the text. -/
  | unconsumed {i : Nat} (inside : i < s.length) (unmatched : Unmatched rs (s.drop i)) :
      Reports rs s i [] (some (.unconsumed s i (.behind (s.take i))))
  /-- The lexeme that wins is reported. Its ends stand where they are reported, line feeds apart. -/
  | found {i : Nat} {m : Match} {ms : List Match} {error : Option EngineError}
      (wins : Wins rs (s.drop i) m.rule m.lexeme)
      (first : m.lexeme.head? ≠ some lineFeed → m.first = .behind (s.take i))
      (last : m.lexeme.getLast? ≠ some lineFeed →
        m.last = .behind (s.take i ++ m.lexeme.dropLast))
      (rest : Reports rs s (i + m.lexeme.length) ms error) : Reports rs s i (m :: ms) error

/-- The laws for an engine. -/
structure Engine.Lawful (engine : Engine) : Prop where
  /-- The rules of the language are accepted, and so is every text. -/
  accepts : ∀ s, ∃ m, engine.scan lexicalRules s = .ok m
  /-- Every text is reported as the rules say. -/
  reports : ∀ s m, engine.scan lexicalRules s = .ok m → Reports lexicalRules s 0 m.found m.error

section Reports

variable {s w : Bytes} {r : LexicalRule} {i : Nat} {ms : List Match} {error : Option EngineError}

/-- A lexeme that is not dropped does not begin with a line feed. -/
theorem Wins.head?_ne_lineFeed (h : Wins lexicalRules s r w) (hskip : r.action ≠ .skip) :
    w.head? ≠ some lineFeed := by
  intro hhead
  obtain ⟨v, rfl⟩ := List.head?_eq_some_iff.mp hhead
  exact not_matches_cons (isNever_derivative_blank rfl h.mem hskip) (mem_language_iff.mp h.matched)

/-- A token does not end with a line feed: a string ends with a quote, and no other token has one. -/
theorem Wins.getLast?_ne_lineFeed (h : Wins lexicalRules s r w) {kind : TokenKind}
    (haction : r.action.Yields w kind) : w.getLast? ≠ some lineFeed := by
  have hm := mem_language_iff.mp h.matched
  by_cases hstring : r.action = .token .stringLiteral
  · obtain ⟨body, rfl, -⟩ := spells_of_mem_lexicalRules h.mem hm (k := .stringLiteral)
      (by rw [hstring]; rfl)
    rw [← List.cons_append, List.getLast?_concat]
    decide
  · have hskip : r.action ≠ .skip := by
      intro hskip
      rw [hskip] at haction
      exact haction
    have hopen : r.action ≠ .unterminated := by
      intro hopen
      rw [hopen] at haction
      exact haction
    have havoids := avoids_blank (b := lineFeed) rfl h.mem hskip (not_or.mpr ⟨hstring, hopen⟩)
    exact fun hlast => not_mem_of_avoids havoids hm (List.mem_of_getLast? hlast)

/-- A cursor that counts as a reader does, and its place after a lexeme. -/
theorem Cursor.past_drop (h : w <+: s.drop i) :
    Cursor.past ⟨s.drop i, .behind (s.take i)⟩ w =
      ⟨s.drop (i + w.length), .behind (s.take (i + w.length))⟩ := by
  obtain ⟨v, hv⟩ := h
  have htake : s.take (i + w.length) = s.take i ++ w := by
    rw [List.take_add, ← hv, List.take_left]
  have hdrop : s.drop (i + w.length) = v := by
    rw [← List.drop_drop, ← hv, List.drop_left]
  rw [htake, hdrop, ← hv, past_append, ← Position.afterAll_start, ← Position.afterAll_start,
    Position.afterAll_append]

/-- The place just past a token, as a reader counts. -/
theorem ending_of_last {m : Match} {u : Bytes} (hne : m.lexeme ≠ [])
    (hlast : m.lexeme.getLast? ≠ some lineFeed) (hm : m.last = .behind (u ++ m.lexeme.dropLast)) :
    m.ending = (Position.behind u).afterAll m.lexeme := by
  have hb : m.lexeme.getLast hne ≠ lineFeed := fun hb =>
    hlast (by rw [List.getLast?_eq_some_getLast hne, hb])
  have hbehind : (Position.behind u).afterAll m.lexeme =
      (Position.behind (u ++ m.lexeme.dropLast)).after (m.lexeme.getLast hne) := by
    rw [← Position.behind_concat, List.append_assoc, List.dropLast_append_getLast hne,
      ← Position.afterAll_start, ← Position.afterAll_start, Position.afterAll_append]
  rw [hbehind, ← hm, Match.ending, Position.after, if_neg hb]

/-- An error about a byte of the text is the one that the lexer has there. -/
theorem translate_unconsumed (h : i < s.length) (p ending : Position) :
    (EngineError.unconsumed s i p).translate ending = Cursor.unrecognized ⟨s.drop i, p⟩ := by
  rw [EngineError.translate, if_pos h, Cursor.unrecognized]

/-- What comes of the reports is what the rules lead to, with the place just past the last token. -/
theorem Reports.lexes (h : Reports lexicalRules s i ms error) (ending : Position) :
    Lexes ⟨s.drop i, .behind (s.take i)⟩ (deliverAll error ending ms).tokens
        (deliverAll error ending ms).error ∧
      (deliverAll error ending ms).ending = lastEnding ending (deliverAll error ending ms).tokens := by
  induction h generalizing ending with
  | ended =>
    rw [List.drop_length]
    exact ⟨.ended _, rfl⟩
  | @unconsumed i inside unmatched =>
    refine ⟨?_, rfl⟩
    have hmore : s.drop i ≠ [] := by simpa using inside
    have hstuck : Cursor.Stuck ⟨s.drop i, .behind (s.take i)⟩ _ := .unrecognized hmore unmatched
    rw [← translate_unconsumed inside _ ending] at hstuck
    exact .stuck hstuck
  | @found i m ms error wins first last rest ih =>
    have hpast := Cursor.past_drop wins.starts
    -- a token stands where it is reported, and the place past it is counted on from there
    have htoken : ∀ kind, m.rule.action.Yields m.lexeme kind →
        m.read = some (.ok ⟨kind, m.lexeme, m.first⟩) →
        Lexes ⟨s.drop i, .behind (s.take i)⟩ (deliverAll error ending (m :: ms)).tokens
            (deliverAll error ending (m :: ms)).error ∧
          (deliverAll error ending (m :: ms)).ending =
            lastEnding ending (deliverAll error ending (m :: ms)).tokens := by
      intro kind haction hread
      have hskip : m.rule.action ≠ .skip := by
        intro hskip
        rw [hskip] at haction
        exact haction
      have hfirst := first (wins.head?_ne_lineFeed hskip)
      have hlast := wins.getLast?_ne_lineFeed haction
      have hending := ending_of_last wins.nonempty hlast (last hlast)
      obtain ⟨hlexes, hrest⟩ := ih m.ending
      simp only [deliverAll, hread]
      refine ⟨?_, ?_⟩
      · rw [hfirst]
        exact .token wins haction (hpast ▸ hlexes)
      · rw [hrest, hending, ← hfirst]
        rfl
    have hfailed : m.rule.action ≠ .skip → m.first = .behind (s.take i) := fun hskip =>
      first (wins.head?_ne_lineFeed hskip)
    cases haction : m.rule.action with
    | skip =>
      have hread : m.read = none := by rw [Match.read, haction]
      obtain ⟨hlexes, hrest⟩ := ih ending
      simp only [deliverAll, hread]
      exact ⟨.skip wins haction (hpast ▸ hlexes), hrest⟩
    | token kind => exact htoken kind (by rw [haction]; rfl) (by rw [Match.read, haction])
    | word => exact htoken (wordKind m.lexeme) (by rw [haction]; rfl) (by rw [Match.read, haction])
    | malformed fault =>
      have hread : m.read = some (.error ⟨.numeral fault m.lexeme, m.first⟩) := by
        rw [Match.read, haction]
      simp only [deliverAll, hread, hfailed (by simp [haction])]
      exact ⟨.stuck (.malformed wins haction), rfl⟩
    | unterminated =>
      have hread : m.read = some (.error ⟨.unterminated m.lexeme, m.first⟩) := by
        rw [Match.read, haction]
      simp only [deliverAll, hread, hfailed (by simp [haction])]
      exact ⟨.stuck (.unterminated wins haction), rfl⟩

end Reports

/-- **All lawful engines agree with the lexer.** With every lawful engine, the tokens of a text, the error
after them and the place just past the last one are those of the lexer. -/
theorem Engine.Lawful.exists_delivery {engine : Engine} (h : engine.Lawful) (s : Bytes) :
    ∃ d, engine.deliver s = .ok d ∧ PrefixForth.tokenize s = (d.tokens, d.error) ∧
      d.ending = lastEnding .unknown d.tokens := by
  obtain ⟨m, hm⟩ := h.accepts s
  obtain ⟨hlexes, hending⟩ := (h.reports s m hm).lexes .unknown
  refine ⟨_, by rw [Engine.deliver, hm]; rfl, ?_, hending⟩
  exact Lexes.tokens_eq hlexes

/-- Every lawful engine cuts a text into the tokens of the cursor, with the error that it meets. -/
theorem Engine.Lawful.tokenize_eq {engine : Engine} (h : engine.Lawful) (s : Bytes) :
    engine.tokenize s = .ok (PrefixForth.tokenize s) := by
  obtain ⟨d, hd, htokens, -⟩ := h.exists_delivery s
  rw [Engine.tokenize, hd, htokens]
  rfl

/-! ### An engine -/

/-- What the rules find in a text from its byte number `i` on. -/
def matchFrom (rs : List LexicalRule) (s : Bytes) (i : Nat) : Matching :=
  match _h : bestMatch rs (s.drop i) with
  | none => ⟨[], if i < s.length then some (.unconsumed s i (.behind (s.take i))) else none⟩
  | some (r, n) =>
    let w := (s.drop i).take n
    let rest := matchFrom rs s (i + n)
    ⟨⟨r, w, .behind (s.take i), .behind (s.take i ++ w.dropLast)⟩ :: rest.found, rest.error⟩
termination_by s.length - i
decreasing_by
  have hpos := pos_of_bestMatch _h
  have hlength := length_of_bestMatch _h
  rw [List.length_drop] at hlength
  omega

private theorem reports_matchFrom {rs : List LexicalRule} {s : Bytes} {i : Nat}
    (hi : i ≤ s.length) :
    Reports rs s i (matchFrom rs s i).found (matchFrom rs s i).error := by
  fun_induction matchFrom rs s i with
  | case1 i hnone =>
    split
    · rename_i hlt
      exact .unconsumed hlt (bestMatch_eq_none_iff.mp hnone)
    · rename_i hge
      obtain rfl : i = s.length := by omega
      exact .ended
  | case2 i r n hbest w rest ih =>
    have hle := length_of_bestMatch hbest
    have hlength : w.length = n := List.length_take_of_le hle
    rw [List.length_drop] at hle
    refine .found (wins_of_bestMatch hbest) (fun _ => rfl) (fun _ => rfl) ?_
    simpa only [hlength] using ih (by omega)

/-- The engine that does what the rules say. -/
def Engine.byRules : Engine where
  scan rs s := .ok (matchFrom rs s 0)

/-- An engine that goes by the rules is lawful, so there is one. -/
theorem Engine.lawful_byRules : Engine.byRules.Lawful where
  accepts s := ⟨_, rfl⟩
  reports s m hm := by
    obtain rfl := Except.ok.inj hm
    exact reports_matchFrom (Nat.zero_le _)

/-! ### Where tokens stand -/

/-- **The tokens of a text lose nothing and locate everything.** With every lawful engine a text has
tokens and possibly an error after them, and they are those of the lexer. The text is made of its tokens,
each with a gap of blanks before it, a last gap and a rest. The rest is empty if no error ends the
tokens; otherwise it is not, and the error has the position of its first byte. Each token has the
position of its first byte, as a reader counts lines and columns. All these positions are known, and
they increase from the start of the text on. -/
theorem tokenize_locates_everything {engine : Engine} (hengine : engine.Lawful) (s : Bytes) :
    ∃ (tokens : List Token) (error : Option LexicalError),
      engine.tokenize s = .ok (tokens, error) ∧ tokenize s = (tokens, error) ∧
      ∃ (pieces : List (Bytes × Token)) (gap rest : Bytes),
        pieces.map Prod.snd = tokens ∧
        s = pieceText pieces ++ gap ++ rest ∧
        (∀ piece ∈ pieces, IsGap piece.1) ∧ IsGap gap ∧
        (∀ front piece back, pieces = front ++ piece :: back →
          piece.2.position = .behind (pieceText front ++ piece.1)) ∧
        (error = none → rest = []) ∧
        (∀ e, error = some e → rest ≠ [] ∧ e.position = .behind (pieceText pieces ++ gap)) ∧
        (∀ q ∈ places tokens error, q.isKnown = true ∧ (q = .start ∨ Position.start.Before q)) ∧
        (places tokens error).Pairwise Position.Before := by
  have hlexes : Lexes (.ofText s) (tokenize s).1 (tokenize s).2 := Lexes.of_tokens _
  obtain ⟨pieces, gap, rest, hcovers⟩ := hlexes.exists_covers
  obtain ⟨hfrom, hordered⟩ := hlexes.places_ordered
  refine ⟨_, _, hengine.tokenize_eq s, rfl, pieces, gap, rest, hcovers.tokens, hcovers.text,
    hcovers.gaps, hcovers.last, fun front piece back => hcovers.placed_behind, hcovers.ended,
    fun e he => ⟨(hcovers.stopped e he).1, hcovers.stopped_behind he⟩,
    fun q hq => ⟨Position.isKnown_of_start (hfrom q hq), hfrom q hq⟩, hordered⟩

/-- A string literal spans two lines, and an error ends the tokens on the third. -/
theorem tokenize_locates_everything_lines :
    ∃ (tokens : List Token) (pieces : List (Bytes × Token)) (gap rest : Bytes) (e : LexicalError),
      Engine.byRules.tokenize (utf8 "(stdout \"a\nb\")\n  @") = .ok (tokens, some e) ∧
      pieces.map Prod.snd = tokens ∧
      utf8 "(stdout \"a\nb\")\n  @" = pieceText pieces ++ gap ++ rest ∧ rest ≠ [] ∧
      e.position = .behind (pieceText pieces ++ gap) ∧ e.position = ⟨3, 3⟩ := by
  obtain ⟨tokens, error, hengine, hlexer, pieces, gap, rest, htokens, htext, -, -, -, -, hstopped, -⟩ :=
    tokenize_locates_everything Engine.lawful_byRules (utf8 "(stdout \"a\nb\")\n  @")
  have hplace : (tokenize (utf8 "(stdout \"a\nb\")\n  @")).2.map LexicalError.position =
      some ⟨3, 3⟩ := by decide +kernel
  rw [hlexer] at hplace
  obtain ⟨e, rfl, hposition⟩ := Option.map_eq_some_iff.mp hplace
  obtain ⟨hmore, hbehind⟩ := hstopped e rfl
  exact ⟨tokens, pieces, gap, rest, e, hengine, htokens, htext, hmore, hbehind, hposition⟩

/-- An error behind a line feed is on the next line, also if nothing comes before it. -/
example : (tokenize (utf8 "\n@")).2 = some ⟨.unrecognized '@', ⟨2, 1⟩⟩ := by
  decide +kernel

/-- A string that is cut off behind a backslash is one without its end, up to the backslash. -/
example : tokenize (utf8 "\"abc\\") = ([], some ⟨.unterminated (utf8 "\"abc"), ⟨1, 1⟩⟩) := by
  decide +kernel

end PrefixForth
