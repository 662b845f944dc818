import PrefixForth.Proofs.Tree.Following

/-!
# Faults about parentheses

A fault that a parenthesis is missing names the innermost form that is still open. Which form that is, a
reader of the text finds by matching parentheses (`LeavesOpen`). A parser does not match them again: by its
open forms it knows which are open, and the procedures that read forms keep them on a stack. Both are
right at every point at which a token is asked for, so the fault names the parenthesis that the reader
finds.

Main statement: `mismatch_names_innermost_open`.
-/

namespace PrefixForth

open Descent

/-- After the tokens, the text goes on with the token, or it ends there and the token stands for the
end. -/
def GoesOnWith (src : Bytes) (ts : List Token) (found : Token) : Prop :=
  (∃ rest, (tokenize src).1 = ts ++ found :: rest) ∨
    (tokenize src = (ts, none) ∧ found = .atEnd (lastEnding .unknown ts))

/-- The token that is met at a point of a run on a text. -/
theorem Parser.Passes.goesOnWith {src : Bytes} {ts : List Token} {l l' : Lexer} {s : FormState}
    (h : Parser.Passes (.ofText src) {} ts l s) {reading : Reading} (hseen : l.peek = (reading, l'))
    (hread : ∀ e, reading ≠ .failed e) : GoesOnWith src ts (l'.tokenOf reading) := by
  obtain ⟨hlook, htokens, hending⟩ := h.tokens_eq rfl
  have htext : tokenize src = (ts ++ l.cursor.tokens.1, l.cursor.tokens.2) := htokens
  cases reading with
  | token t =>
    obtain ⟨c, hscan, -, -⟩ := Lexer.scan_of_peek_token hlook hseen
    rw [Cursor.tokens_of_token hscan] at htext
    exact .inl ⟨c.tokens.1, by rw [htext]; rfl⟩
  | ended =>
    obtain ⟨c, hscan⟩ := Lexer.scan_of_peek_ended hlook hseen
    rw [Cursor.tokens_of_ended hscan, List.append_nil] at htext
    refine .inr ⟨htext, ?_⟩
    rw [Lexer.tokenOf, Lexer.ending_of_peek_ended hlook hseen, hending]
    · rfl
    · rintro e ⟨⟩
  | failed e => exact absurd rfl (hread e)

/-- The stack of the procedures, where one of them asks for a token of a text. -/
theorem exists_leavesOpen_of_asks {src : Bytes} {q : Parser}
    (h : Asks (Loop.forms.read []) (.ofText src) q) :
    ∃ ts, (tokenize src).1 = ts ++ q.pending ∧ ∀ ps, LeavesOpen ts ps ↔ ps = q.opened := by
  obtain ⟨ts, hpending, hopen⟩ := openSince_of_asks (Parser.sound_ofText src) h
  exact ⟨ts, hpending, (hopen [] (.none .nil)).iff_eq⟩

/-- **Faults about parentheses point to the innermost open form.** At every point of a run on a text,
the parentheses that the parser holds for open are those that the tokens taken so far leave unmatched,
the innermost one first; after the last form there is none. The same holds of the stack of the procedures
that read forms, wherever one of them asks for a token, and every token that is taken has been asked for.
So a fault about parentheses is met at a token, or at the end of the text, that does not fit to the tokens
before it; it has the position of that token, and it names the innermost parenthesis that the tokens
before it leave unmatched, which is on top of the stack. It names none exactly if these leave none
unmatched. -/
theorem mismatch_names_innermost_open (src : Bytes) :
    (∀ ts l s, Parser.Passes (.ofText src) {} ts l s →
      (Parser.ofText src).parse = Parser.run l s ∧ ∀ ps, LeavesOpen ts ps ↔ ps = s.opened) ∧
    (∀ q, Asks (Loop.forms.read []) (.ofText src) q →
      ∃ ts, (tokenize src).1 = ts ++ q.pending ∧ ∀ ps, LeavesOpen ts ps ↔ ps = q.opened) ∧
    (∀ ts rest, (tokenize src).1 = ts ++ rest → (Parser.ofText src).parse.2.left < rest.length →
      ∃ q, Asks (Loop.forms.read []) (.ofText src) q ∧ q.pending = rest) ∧
    (∀ p parser, (Parser.ofText src).parse = (.ok p, parser) → parser.opened = []) ∧
    ∀ e q, parse src = .error (.parsing e q) → e.reason = .mismatchedParenthesis →
      ∃ ts l s found taken ps, Parser.Passes (.ofText src) {} ts l s ∧ GoesOnWith src ts found ∧
        s.step found = .fault e q taken ∧ q = found.position ∧
        (∀ ps', LeavesOpen ts ps' ↔ ps' = ps) ∧
        (∃ parser, (Loop.forms.read []).run (.ofText src) = some (.error (.parsing e q), parser) ∧
          parser.opened = ps) ∧
        ((ps = [] ∧ e = .notOpened found ∧
            e.text = utf8 "mismatched parenthesis at " ++ found.shown) ∨
          ∃ p rest, ps = p :: rest ∧ e = .notClosed p found ∧
            e.text = utf8 "mismatched parenthesis: form opened at " ++ p.text ++
              utf8 " not closed, have " ++ found.shown) := by
  have hrun : (Parser.ofText src).parse = Parser.run (.ofText src) {} := rfl
  -- the procedures end as the run does, with the same parser
  have hprocedures := run_forms (Parser.sound_ofText src)
  obtain ⟨ts, l, s, hpasses, hends⟩ := Parser.exists_ends (l := .ofText src) (s := {}) rfl
  rw [← hrun] at hends
  refine ⟨fun ts l s h => ⟨hrun.trans h.run_eq, (h.leavesOpen rfl).iff_eq⟩,
    fun q hq => exists_leavesOpen_of_asks hq,
    fun ts rest htokens => (asksForAll_of_run hprocedures).2 rest ⟨ts, htokens.symm⟩,
    fun p parser hparse => ?_, fun e q hparse hreason => ?_⟩
  · rw [hparse] at hends
    cases hends with
    | done seen step => exact hpasses.opened_eq_nil (FormState.step_eq_done_iff.mp step).2.1
  · -- the token that was met is the next one, or it stands for the end
    have hmet : ∃ found taken parser, GoesOnWith src ts found ∧ s.step found = .fault e q taken ∧
        (Parser.ofText src).parse = (.error (.parsing e q), parser) ∧ parser.opened = s.opened := by
      rw [parse] at hparse
      generalize hresult : (Parser.ofText src).parse = result at hends hparse
      cases hends with
      | done | failed => cases hparse
      | refused seen step =>
        cases hparse
        exact ⟨_, _, _, hpasses.goesOnWith seen (by rintro e ⟨⟩), step, rfl, rfl⟩
      | unfinished seen step =>
        cases hparse
        exact ⟨_, _, _, hpasses.goesOnWith seen (by rintro e ⟨⟩), step, rfl, rfl⟩
    obtain ⟨found, taken, parser, hfound, hstep, hparser, hopened⟩ := hmet
    obtain ⟨hplace, hnames⟩ := FormState.fault_of_mismatch hstep hreason
    refine ⟨ts, l, s, found, taken, s.opened, hpasses, hfound, hstep, hplace,
      (hpasses.leavesOpen rfl).iff_eq, ⟨parser, by rw [hprocedures, hparser], hopened⟩, ?_⟩
    rcases hnames with ⟨hnone, rfl⟩ | ⟨p, rest, hsome, rfl⟩
    · exact .inl ⟨hnone, rfl, rfl⟩
    · exact .inr ⟨p, rest, hsome, rfl, rfl⟩

/-- Three forms are open where the text ends, and the innermost is a declaration of one name. -/
theorem mismatch_names_innermost_open_declaration :
    ∃ ts found p rest, parse (utf8 "(while (< x 1) (let (y int)\n (z real") =
        .error (.parsing (.notClosed p found) found.position) ∧
      GoesOnWith (utf8 "(while (< x 1) (let (y int)\n (z real") ts found ∧
      LeavesOpen ts (p :: rest) ∧ p = ⟨2, 2⟩ ∧ found = .atEnd ⟨2, 9⟩ := by
  have hfault : (parse (utf8 "(while (< x 1) (let (y int)\n (z real")).map (fun _ => ()) =
      .error (.parsing (.notClosed ⟨2, 2⟩ (.atEnd ⟨2, 9⟩)) ⟨2, 9⟩) := by
    decide +kernel
  rcases hparse : parse (utf8 "(while (< x 1) (let (y int)\n (z real") with e | p
  · rw [hparse] at hfault
    obtain rfl := Except.error.inj hfault
    obtain ⟨ts, l, s, found, taken, ps, -, hfound, -, -, hopen, -, hnames⟩ :=
      (mismatch_names_innermost_open _).2.2.2.2 _ _ hparse rfl
    rcases hnames with ⟨-, he, -⟩ | ⟨p, rest, rfl, he, -⟩
    · cases he
    · obtain ⟨rfl, rfl⟩ := ParsingFault.notClosed.inj he
      exact ⟨ts, _, _, rest, rfl, hfound, (hopen _).mpr rfl, rfl, rfl⟩
  · rw [hparse] at hfault
    cases hfault

end PrefixForth
