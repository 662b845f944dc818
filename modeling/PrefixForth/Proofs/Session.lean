import PrefixForth.Proofs.Layout
import PrefixForth.Proofs.Text.Trimming
import PrefixForth.Proofs.Token.Location
import PrefixForth.Session

/-!
# Programs in a session

A line is trimmed by the white space of Unicode, its first word decides what is done with it, and bytes
zero are taken off a program before it is compiled, while the lexer knows four blank bytes only. None of
this harms a program: a text with at least one form starts with a parenthesis and ends with one, but for
blanks (`exists_enclosed_of_compile`), the blanks around it do not matter (`Enclosed.compile_eq`), and no
command starts with a parenthesis (`Session.request_of_enclosed`).

What a line asks for does not depend on the session (`Session.request`), and the answer to it only if it
is the command `mode` (`Session.obey_congr`), so a session answers as a new one does.

Main statement: `session_compiles_faithfully`.
-/

namespace PrefixForth

open Grammar

/-! ### Blanks around a text -/

/-- The text starts and ends with parentheses, but for blanks before and behind them. -/
structure Enclosed (s lead inner trail : Bytes) : Prop where
  text : s = lead ++ (openingByte :: (inner ++ [closingByte]) ++ trail)
  lead_blank : ∀ b ∈ lead, isBlankByte b = true
  trail_blank : ∀ b ∈ trail, isBlankByte b = true

/-- A gap is made of blank bytes. -/
theorem IsGap.isBlankByte {w : Bytes} (h : IsGap w) : ∀ b ∈ w, isBlankByte b = true := by
  intro b hb
  simpa [PrefixForth.isBlankByte, or_assoc] using h b hb

private theorem exists_enclosed {s : Bytes} {ts : List Token} (hs : tokenize s = (ts, none))
    (hopen : ∃ t ∈ ts.head?, t.kind = .openParen) (hclose : EndsClosed ts) :
    ∃ lead inner trail, Enclosed s lead inner trail := by
  have hlexes : Lexes (.ofText s) ts none := Lexes.iff_tokens_eq.mpr hs
  obtain ⟨pieces, gap, rest, hcovers⟩ := hlexes.exists_covers
  have hspelled : ∀ t ∈ ts, t.WellSpelled := fun t ht =>
    spells_of_mem_tokenize (s := s) (by rw [hs]; exact ht)
  obtain rfl := hcovers.tokens
  obtain ⟨t, ht, hkind⟩ := hopen
  rcases pieces with _ | ⟨⟨lead, t₀⟩, pieces⟩
  · cases ht
  · obtain rfl : t₀ = t := Option.some.inj ht
    -- the last token is another one, since it is of another kind
    rcases List.eq_nil_or_concat pieces with rfl | ⟨front, ⟨between, t'⟩, rfl⟩
    · have hlast := hclose t₀ rfl
      rw [hkind] at hlast
      cases hlast
    · have hkind' : t'.kind = .closeParen := hclose t' (by simp [List.getLast?_cons])
      have htext := hspelled t₀ (by simp)
      have htext' := hspelled t' (by simp)
      rw [Token.WellSpelled, hkind, TokenKind.Spells, utf8_parens.1] at htext
      rw [Token.WellSpelled, hkind', TokenKind.Spells, utf8_parens.2] at htext'
      have hcut : s = pieceText ((lead, t₀) :: front.concat (between, t')) ++ gap ++ rest :=
        hcovers.text
      rw [hcovers.ended rfl] at hcut
      refine ⟨lead, pieceText front ++ between, gap, ?_, ?_, hcovers.last.isBlankByte⟩
      · simpa [pieceText, htext, htext'] using hcut
      · exact (hcovers.gaps (lead, t₀) List.mem_cons_self).isBlankByte

/-- A lexeme that wins in a text wins in every beginning of the text that holds it. -/
theorem Wins.of_append {rs : List LexicalRule} {s u w : Bytes} {r : LexicalRule}
    (h : Wins rs (s ++ u) r w) (hw : w <+: s) : Wins rs s r w :=
  ⟨h.nonempty, hw, h.matched, fun r' hr' w' hw' =>
    h.longest r' hr' w' (hw'.trans (List.prefix_append s u)), h.first⟩

/-- No lexeme holds a closing parenthesis and blanks at its end. -/
theorem Wins.prefix_of_blanks {s trail w : Bytes} {r : LexicalRule}
    (h : Wins lexicalRules (s ++ [closingByte] ++ trail) r w)
    (htrail : ∀ b ∈ trail, isBlankByte b = true) (hopen : r.action ≠ .unterminated) :
    w <+: s ++ [closingByte] := by
  have hstart := List.prefix_append (s ++ [closingByte]) trail
  rcases List.prefix_or_prefix_of_prefix h.starts hstart with hw | ⟨v, rfl⟩
  · exact hw
  · rcases List.eq_nil_or_concat v with rfl | ⟨v, b, rfl⟩
    · simp
    · -- the lexeme would end with the blank `b`, as neither a parenthesis nor a string does
      have hb : isBlankByte b = true := by
        have hv := (List.prefix_append_right_inj _).mp h.starts
        exact htrail b (hv.mem (by simp))
      have hm := Pattern.mem_language_iff.mp h.matched
      rcases action_of_mem_closingByte h.mem hm (by simp) with heq | haction | haction
      · have hlength := congrArg List.length heq
        simp only [List.length_append, List.length_concat, List.length_singleton] at hlength
        omega
      · obtain ⟨body, heq, -⟩ := spells_of_mem_lexicalRules h.mem hm (k := .stringLiteral)
          (by rw [haction]; rfl)
        have hlast := congrArg List.getLast? heq
        simp only [List.concat_eq_append, ← List.append_assoc, List.getLast?_append,
          List.getLast?_singleton, Option.some_or, ← List.cons_append] at hlast
        obtain rfl : b = quoteMark := Option.some.inj hlast
        exact absurd hb (by decide)
      · exact absurd haction hopen

/-- A lexeme of such a text lies within it, and what is left of the text ends in the same way. -/
theorem Wins.exists_rest {p : Position} {s trail w : Bytes} {r : LexicalRule}
    (h : Wins lexicalRules (s ++ trail) r w) (hopen : r.action ≠ .unterminated) (hne : s ≠ [])
    (hs : ∀ b ∈ s.getLast?, b = closingByte) (htrail : ∀ b ∈ trail, isBlankByte b = true) :
    ∃ s', s = w ++ s' ∧ (∀ b ∈ s'.getLast?, b = closingByte) ∧ Wins lexicalRules s r w ∧
      Cursor.past ⟨s ++ trail, p⟩ w = ⟨s' ++ trail, p.afterAll w⟩ := by
  obtain ⟨s₀, b, rfl⟩ := (List.eq_nil_or_concat s).resolve_left hne
  obtain rfl : b = closingByte := hs b (by simp)
  rw [List.concat_eq_append] at h hs ⊢
  have hstart := h.prefix_of_blanks htrail hopen
  have hshort := h.of_append hstart
  obtain ⟨s', hs'⟩ := hstart
  refine ⟨s', hs'.symm, fun b hb => hs b ?_, hshort, ?_⟩
  · rw [← hs', List.getLast?_append, Option.mem_def.mp hb, Option.some_or]
    rfl
  · rw [← hs', List.append_assoc, Cursor.past_append]

private theorem Lexes.nil_of_blank {c : Cursor} {ts : List Token} {error : Option LexicalError}
    (h : Lexes c ts error) (hc : ∀ b ∈ c.rest, isBlankByte b = true) (p : Position) :
    Lexes ⟨[], p⟩ ts error := by
  have hblank := Cursor.tokens_blanks hc [] c.position
  rw [List.append_nil, (Lexes.ended _).tokens_eq] at hblank
  obtain ⟨rfl, rfl⟩ := Prod.mk.inj (h.tokens_eq.symm.trans hblank)
  exact .ended p

/-- Blanks behind a text that ends with a closing parenthesis, or is empty, are no part of its
tokens. -/
theorem Lexes.of_trail {c : Cursor} {ts : List Token} (h : Lexes c ts none) {s trail : Bytes}
    (hc : c.rest = s ++ trail) (hs : ∀ b ∈ s.getLast?, b = closingByte)
    (htrail : ∀ b ∈ trail, isBlankByte b = true) : Lexes ⟨s, c.position⟩ ts none := by
  by_cases hne : s = []
  · subst hne
    exact h.nil_of_blank (hc ▸ htrail) _
  -- by induction on the tokens of the text with the blanks, of which no token takes a part
  generalize hnone : (none : Option LexicalError) = error at h
  induction h generalizing s with
  | ended p => exact absurd (List.append_eq_nil_iff.mp hc.symm).1 hne
  | stuck => cases hnone
  | @skip c r w ts error wins action rest ih =>
    subst hnone
    obtain ⟨_, p⟩ := c
    subst hc
    obtain ⟨s', rfl, hs', hwins, hpast⟩ := wins.exists_rest (p := p) (by simp [action]) hne hs htrail
    rw [hpast] at ih rest
    refine .skip hwins action ?_
    rw [Cursor.past_append]
    by_cases hne' : s' = []
    · subst hne'
      exact rest.nil_of_blank htrail _
    · exact ih rfl hs' hne' rfl
  | @token c r w kind ts error wins action rest ih =>
    subst hnone
    obtain ⟨_, p⟩ := c
    subst hc
    have hopen : r.action ≠ .unterminated := fun h => by rw [h] at action; exact action
    obtain ⟨s', rfl, hs', hwins, hpast⟩ := wins.exists_rest (p := p) hopen hne hs htrail
    rw [hpast] at ih rest
    refine .token hwins action ?_
    rw [Cursor.past_append]
    by_cases hne' : s' = []
    · subst hne'
      exact rest.nil_of_blank htrail _
    · exact ih rfl hs' hne' rfl

/-! ### Programs between blanks -/

namespace Enclosed

variable {s lead inner trail : Bytes}

/-- The tokens of a text are those between the blanks around it. -/
theorem exists_tokenize (h : Enclosed s lead inner trail) {ts : List Token}
    (hs : tokenize s = (ts, none)) :
    ∃ us, tokenize (openingByte :: (inner ++ [closingByte])) = (us, none) ∧
      ts.map Token.look = us.map Token.look := by
  obtain ⟨rfl, hlead, htrail⟩ := h
  have htokens := Cursor.tokens_blanks hlead (openingByte :: (inner ++ [closingByte]) ++ trail) .start
  have hlexes : Lexes ⟨openingByte :: (inner ++ [closingByte]) ++ trail, _⟩ ts none :=
    Lexes.iff_tokens_eq.mpr (htokens.symm.trans hs)
  have hbetween := hlexes.of_trail (s := openingByte :: (inner ++ [closingByte])) rfl
    (by simp [List.getLast?_cons]) htrail
  -- read from the start, the tokens are at other places
  rcases hus : tokenize (openingByte :: (inner ++ [closingByte])) with ⟨us, error⟩
  have hstart : Lexes (.ofText _) us error := Lexes.iff_tokens_eq.mpr hus
  have hmoved := hstart.relocate (Position.carries_beyond (Position.start.afterAll lead)) rfl
  have hcursor : (Cursor.ofText (openingByte :: (inner ++ [closingByte]))).relocate
      (.beyond (Position.start.afterAll lead)) =
        ⟨openingByte :: (inner ++ [closingByte]), Position.start.afterAll lead⟩ := by
    rw [Cursor.relocate, Cursor.ofText, Position.beyond_start]
  rw [hcursor] at hmoved
  obtain ⟨rfl, herror⟩ := Prod.mk.inj (hbetween.tokens_eq.symm.trans hmoved.tokens_eq)
  refine ⟨us, ?_, ?_⟩
  · rw [Option.map_eq_none_iff.mp herror.symm]
  · rw [List.map_map]
    rfl

/-- A text is compiled as what stands between the blanks around it. -/
theorem compile_eq (h : Enclosed s lead inner trail) {p : Program} (hp : parse s = .ok p) :
    compile (openingByte :: (inner ++ [closingByte])) = compile s := by
  obtain ⟨ts, hts, -⟩ := parse_eq_ok_iff_readAll.mp hp
  obtain ⟨us, hus, hlook⟩ := h.exists_tokenize hts
  have hread := placeOutcome_parse_congr hts hus hlook
  rcases hp' : parse (openingByte :: (inner ++ [closingByte])) with e | p' <;>
    rw [hp, hp'] at hread
  · cases hread
  · exact (compile_congr hp hp' (Except.ok.inj hread)).symm

end Enclosed

/-- A program with a target text stands between parentheses, but for blanks. -/
theorem exists_enclosed_of_compile {s target : Bytes} (h : compile s = .ok target)
    (hne : target ≠ []) :
    ∃ lead inner trail, Enclosed s lead inner trail ∧
      compile (openingByte :: (inner ++ [closingByte])) = .ok target := by
  rcases hp : parse s with e | p
  · rw [compile_of_parse_error hp] at h
    cases h
  · obtain ⟨ts, hts, d, hd, rfl, rfl⟩ := parse_eq_ok_iff_derivation.mp hp
    rcases d with _ | ⟨f, d⟩
    · -- without forms there is no target text
      rw [compile_of_parse hp] at h
      exact absurd (Except.ok.inj h).symm hne
    · obtain ⟨paren, rest, htokens, hparen⟩ := Form.exists_tokens_eq (hd f List.mem_cons_self)
      have hopen : ∃ t ∈ (Derivation.tokens (f :: d)).head?, t.kind = .openParen :=
        ⟨paren, by simp [Derivation.tokens, htokens], hparen⟩
      obtain ⟨lead, inner, trail, henclosed⟩ := exists_enclosed hts hopen (Derivation.endsClosed hd)
      exact ⟨lead, inner, trail, henclosed, (henclosed.compile_eq hp).trans h⟩

/-! ### What a line asks for -/

namespace Session

/-- What a line asks for. -/
inductive Request where
  | nothing
  | help
  | bye
  | mode (args : List Bytes)
  | setPrompt (line : Bytes)
  | tokens (source : Bytes)
  | symbols (source : Bytes)
  | program (source : Bytes)
  deriving DecidableEq, Repr

/-- What a line asks for, by its first word. -/
def request (line : Bytes) : Request :=
  let trimmed := trimBlanks line
  match blankWords trimmed with
  | [] => .nothing
  | word :: args =>
    let rest := trimBlanks (trimmed.drop word.length)
    if word = utf8 "help" then .help
    else if word = utf8 "bye" then .bye
    else if word = utf8 "mode" then .mode args
    else if word = utf8 "setprompt" then .setPrompt trimmed
    else if word = utf8 "tokens" then .tokens rest
    else if word = utf8 "symbols" then .symbols rest
    else .program trimmed

/-- The answer to what a line asks for. -/
def obey (s : Session) : Request → Response × Session
  | .nothing => ({}, s)
  | .help => ({ stderr := helpText }, s)
  | .bye => ({ stderr := utf8 "> goodbye!\n", ended := true }, s)
  | .mode args => s.runMode args
  | .setPrompt line => ({}, { s with prompt := promptOf line })
  | .tokens source => (runTokens source, s)
  | .symbols source => (runSymbols source, s)
  | .program source => (runProgram source, s)

private theorem respond_eq_obey (s : Session) (line : Bytes) :
    s.respond line = s.obey (request line) := by
  simp only [respond, request]
  rcases blankWords (trimBlanks line) with _ | ⟨word, args⟩
  · rfl
  · simp only [apply_ite s.obey]
    rfl

/-- Only the answer to `mode` depends on the session. -/
theorem obey_congr (s s' : Session) {q : Request} (hq : ∀ args, q ≠ .mode args) :
    (s.obey q).1 = (s'.obey q).1 := by
  cases q with
  | mode args => exact absurd rfl (hq args)
  | _ => rfl

/-- A line that starts with a parenthesis, but for blanks, is a program, since no command does. -/
theorem request_of_enclosed {line lead inner trail : Bytes} (h : Enclosed line lead inner trail) :
    request line = .program (trimBlanks line) ∧
      trimBlanks line = openingByte :: (inner ++ [closingByte]) := by
  have hopening : IsSolid openingByte := ⟨'(', rfl, rfl⟩
  have hclosing : IsSolid closingByte := ⟨')', rfl, rfl⟩
  have htrim : trimBlanks line = openingByte :: (inner ++ [closingByte]) := by
    rw [h.text]
    exact trimBlanks_append hopening hclosing h.lead_blank h.trail_blank
  obtain ⟨rest, words, hwords⟩ := exists_blankWords_cons hopening (inner ++ [closingByte])
  have hhead : ∀ word ∈ [utf8 "help", utf8 "bye", utf8 "mode", utf8 "setprompt", utf8 "tokens",
      utf8 "symbols"], word.head? ≠ some openingByte := by decide
  have hcommand : ∀ word ∈ [utf8 "help", utf8 "bye", utf8 "mode", utf8 "setprompt", utf8 "tokens",
      utf8 "symbols"], ¬openingByte :: rest = word :=
    fun word hword heq => hhead word hword (by rw [← heq]; rfl)
  simp only [List.forall_mem_cons] at hcommand
  refine ⟨?_, htrim⟩
  simp only [request, htrim, hwords, hcommand, if_false]

/-! ### Lines before and lines after -/

/-- The session after some lines. -/
def after (s : Session) (lines : List Bytes) : Session :=
  lines.foldl (fun s line => (s.respond line).2) s

/-- A session that has not ended answers further lines. -/
theorem respondAll_append (s : Session) {lines : List Bytes} (further : List Bytes)
    (h : ∀ r ∈ s.respondAll lines, r.ended = false) :
    s.respondAll (lines ++ further) = s.respondAll lines ++ (s.after lines).respondAll further := by
  induction lines generalizing s with
  | nil => rfl
  | cons line lines ih =>
    have hgoes : (s.respond line).1.ended = false := h _ (by simp [respondAll])
    have hrest : ∀ r ∈ (s.respond line).2.respondAll lines, r.ended = false := fun r hr =>
      h r (by simp [respondAll, hgoes, hr])
    have hafter : s.after (line :: lines) = (s.respond line).2.after lines := rfl
    simp only [List.cons_append, respondAll, hgoes, Bool.false_eq_true, if_false, hafter]
    rw [ih _ hrest]

private theorem transcript_append {lines : List Bytes} (further : List Bytes)
    (h : ∀ r ∈ transcript lines, r.ended = false) :
    transcript (lines ++ further) =
      transcript lines ++ (({} : Session).after lines).respondAll further := by
  rw [transcript, respondAll_append _ further fun r hr => h r (List.mem_cons_of_mem _ hr)]
  rfl

/-- The answer to a program with a target text. -/
theorem respond_of_compile (s : Session) {line target : Bytes} (h : compile line = .ok target)
    (hne : target ≠ []) :
    request line = .program (trimBlanks line) ∧ compile (trimBlanks line) = .ok target ∧
      trimZeros (trimBlanks line) = trimBlanks line ∧
      s.respond line = ({ stdout := target ++ [lineFeed] }, s) := by
  obtain ⟨lead, inner, trail, henclosed, hcompile⟩ := exists_enclosed_of_compile h hne
  obtain ⟨hrequest, htrim⟩ := request_of_enclosed henclosed
  rw [← htrim] at hcompile
  have hzeros : trimZeros (trimBlanks line) = trimBlanks line := by
    rw [htrim]
    simp [trimZeros, openingByte, closingByte]
  refine ⟨hrequest, hcompile, hzeros, ?_⟩
  rw [respond_eq_obey, hrequest, obey, runProgram, hzeros, hcompile]
  rfl

end Session

open Session in
/-- **A session compiles every program faithfully.** Let a line be a program with a target text, and let
the lines before it not have ended the session. Then the line asks for a program and for no command.
Taking white space off its ends, and then zeros, does not change its target text. The answer to it is
the target text and a line feed, and no message. The session goes on, and whatever lines follow are
answered as if the line had not been there. And any further line but the command `mode` is answered as
by a new session, so no declaration is known beyond its line. -/
theorem session_compiles_faithfully {before : List Bytes} {line target : Bytes}
    (hopen : ∀ r ∈ transcript before, r.ended = false) (hcompile : compile line = .ok target)
    (htarget : target ≠ []) :
    request line = .program (trimBlanks line) ∧
      compile (trimBlanks line) = .ok target ∧ compile (trimZeros (trimBlanks line)) = .ok target ∧
      transcript (before ++ [line]) = transcript before ++
        [{ stdout := target ++ [lineFeed], stderr := [], ended := false }] ∧
      (∀ later, transcript (before ++ line :: later) = transcript (before ++ [line]) ++
        (transcript (before ++ later)).drop (transcript before).length) ∧
      ∀ further, (∀ args, request further ≠ .mode args) →
        transcript (before ++ [line, further]) =
          transcript (before ++ [line]) ++ (transcript [further]).tail := by
  obtain ⟨hrequest, htrimmed, hzeros, hrespond⟩ :=
    respond_of_compile (({} : Session).after before) hcompile htarget
  have hanswer : transcript (before ++ [line]) =
      transcript before ++ [{ stdout := target ++ [lineFeed] }] := by
    rw [transcript_append _ hopen, respondAll, hrespond]
    rfl
  have hlater : ∀ later, transcript (before ++ line :: later) =
      transcript (before ++ [line]) ++ (({} : Session).after before).respondAll later := by
    intro later
    rw [transcript_append _ hopen, hanswer, respondAll, hrespond]
    simp
  refine ⟨hrequest, htrimmed, by rw [hzeros, htrimmed], hanswer, ?_, ?_⟩
  · intro later
    rw [hlater, transcript_append later hopen, List.drop_left]
  · intro further hfurther
    -- but for the mode, an answer does not depend on the session
    have hsame := obey_congr (({} : Session).after before) {} hfurther
    rw [← respond_eq_obey, ← respond_eq_obey] at hsame
    have hone : ∀ s : Session, s.respondAll [further] = [(s.respond further).1] := fun s => by
      simp [respondAll]
    have hnew : (transcript [further]).tail = ({} : Session).respondAll [further] := rfl
    rw [hlater, hnew, hone, hone, hsame]

/-- Earlier lines declare and assign the name, use it in vain, and change mode and prompt. -/
theorem session_compiles_faithfully_again :
    ∃ target, compile (utf8 "\t(let (x real)) (:= x 2) (stdout \"( x )\")  ") = .ok target ∧
      (Session.transcript [utf8 "(let (x int)) (:= x 1)", utf8 "mode vi", utf8 "setprompt help",
          utf8 "(stdout x)", utf8 "\t(let (x real)) (:= x 2) (stdout \"( x )\")  "]).getLast? =
        some { stdout := target ++ [lineFeed], stderr := [], ended := false } := by
  have hopen : ∀ r ∈ Session.transcript [utf8 "(let (x int)) (:= x 1)", utf8 "mode vi",
      utf8 "setprompt help", utf8 "(stdout x)"], r.ended = false := by decide +kernel
  have hsome : ((compile (utf8 "\t(let (x real)) (:= x 2) (stdout \"( x )\")  ")).toOption.any
      fun target => target ≠ []) = true := by decide +kernel
  rcases hcompile : compile (utf8 "\t(let (x real)) (:= x 2) (stdout \"( x )\")  ") with e | target
  · rw [hcompile] at hsome
    cases hsome
  · rw [hcompile] at hsome
    have hne : target ≠ [] := by simpa [Except.toOption] using hsome
    obtain ⟨-, -, -, hanswer, -⟩ := session_compiles_faithfully hopen hcompile hne
    refine ⟨target, rfl, ?_⟩
    have hlines := congrArg List.getLast? hanswer
    rwa [List.getLast?_concat] at hlines

end PrefixForth
