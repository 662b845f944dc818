import PrefixForth.Proofs.Tree.Following

/-!
# Parsing always ends

A parser takes one token after the other, so its run is bounded by the text. The procedures of `Descent`
end for another reason, each of them by the tokens that it takes, and they say more about a text: which
call pays for which node. A call that succeeds has taken a token (`Consumes`), and so has a round of a
loop that is followed by another one (`ConsumesOrLeaves`).

Main statement: `parsing_always_ends`.
-/

namespace PrefixForth

open Descent Descent.Procedure

namespace Descent

/-! ### What calls and rounds take -/

section Consumption

/-- Whatever the parser, the procedure ends, and it has then taken some of the tokens to come; where it
succeeds, at least one. -/
def Consumes (m : Procedure Node) : Prop :=
  ∀ p : Parser, ∃ r p' ts, m.run p = some (r, p') ∧ p.pending = ts ++ p'.pending ∧
    ∀ n, r = .ok n → ts ≠ []

/-- Whatever the parser, the round ends, and it has then taken some of the tokens to come; where there is
another round, at least one. -/
def ConsumesOrLeaves (m : Procedure Round) : Prop :=
  ∀ p : Parser, ∃ r p' ts, m.run p = some (r, p') ∧ p.pending = ts ++ p'.pending ∧
    ∀ done, r = .ok (.again done) → ts ≠ []

private theorem ne_nil_of_left_lt {p p' : Parser} {ts : List Token}
    (h : ts ++ p'.pending = p.pending)
    (hlt : p'.left < p.left) : ts ≠ [] := by
  rintro rfl
  rw [Parser.left, Parser.left, ← h] at hlt
  exact lt_irrefl _ hlt

private theorem consumes_of_ends {m : Procedure Node} (h : ∀ p, Ends m p (Paid p)) :
    Consumes m := by
  intro p
  obtain ⟨r, p', hrun, hpaid⟩ := h p
  obtain ⟨ts, hts⟩ := (asksForAll_of_run hrun).1
  exact ⟨r, p', ts, hrun, hts.symm, fun n hn => ne_nil_of_left_lt hts (hpaid n hn).left_lt⟩

private theorem consumesOrLeaves_of_ends {m : Procedure Round} {done : List Node}
    (h : ∀ p, Ends m p (PaidRound done p)) : ConsumesOrLeaves m := by
  intro p
  obtain ⟨r, p', hrun, hpaid⟩ := h p
  obtain ⟨ts, hts⟩ := (asksForAll_of_run hrun).1
  exact ⟨r, p', ts, hrun, hts.symm, fun ns hns => ne_nil_of_left_lt hts (hpaid _ hns).2⟩

end Consumption

end Descent

/-- Scanning leaves an end of the text. -/
theorem Cursor.suffix_of_scan {c c' : Cursor} {reading : Reading} (h : c.scan = (reading, c')) :
    c'.rest <:+ c.rest := by
  fun_induction scan c with
  | case2 c r n hbest haction ih => exact (ih h).trans (List.drop_suffix n c.rest)
  | case3 c r n hbest kind haction =>
    cases h
    exact List.drop_suffix n c.rest
  | case4 c r n hbest haction =>
    cases h
    exact List.drop_suffix n c.rest
  | case1 | case5 | case6 =>
    cases h
    exact List.suffix_rfl

/-- A scan takes a token and with it at least one byte, or it comes to a state that it does not leave. -/
theorem Lexer.read_advances_or_stays (l : Lexer) :
    (∃ t bytes, l.read.1 = .token t ∧ bytes ≠ [] ∧ l.cursor.rest = bytes ++ l.read.2.cursor.rest) ∨
      ((∀ t, l.read.1 ≠ .token t) ∧ l.read.2.read = l.read) := by
  rcases hscan : l.cursor.scan with ⟨reading, c⟩
  cases reading with
  | token t =>
    have hread : l.read = (.token t, ⟨c, none, c.position⟩) := by rw [read, hscan]
    obtain ⟨bytes, hbytes⟩ := Cursor.suffix_of_scan hscan
    have hlt := Cursor.length_scan_lt hscan
    rw [← hbytes, List.length_append, Nat.lt_add_left_iff_pos] at hlt
    rw [hread]
    exact .inl ⟨t, bytes, rfl, List.ne_nil_of_length_pos hlt, hbytes.symm⟩
  | ended | failed =>
    have hnone : ∀ t, l.read.1 ≠ .token t := by simp [read, hscan]
    exact .inr ⟨hnone, read_again hnone⟩

/-- **Parsing always ends.** Every scan takes at least one byte for a token, or comes to the end of the
text or to an error and stays there. From every parser, reading a form, an operand or a declaration ends,
and where it succeeds, it has taken at least one token. So does every round of every loop, and one that
is followed by another round has taken at least one token. Therefore the forms of every text are read in
finite time, well-formed or not, with the result of the parser, and a program has no more nodes than its
text has tokens. -/
theorem parsing_always_ends :
    (∀ l : Lexer,
      (∃ t bytes, l.read.1 = .token t ∧ bytes ≠ [] ∧
        l.cursor.rest = bytes ++ l.read.2.cursor.rest) ∨
      ((∀ t, l.read.1 ≠ .token t) ∧ l.read.2.read = l.read)) ∧
    (Consumes Part.form.read ∧ Consumes Part.operand.read ∧ Consumes binding) ∧
    (∀ (loop : Loop) (done : List Node), ConsumesOrLeaves (loop.round done)) ∧
    ∀ s : Bytes, (Loop.forms.read []).run (.ofText s) = some (Parser.ofText s).parse ∧
      ∀ program, parse s = .ok program → Node.sizeAll program ≤ (tokenize s).1.length := by
  refine ⟨Lexer.read_advances_or_stays,
    ⟨consumes_of_ends form_ends, consumes_of_ends operand_ends, consumes_of_ends binding_ends⟩,
    fun loop done => consumesOrLeaves_of_ends (round_ends loop done), fun s => ?_⟩
  have hrun := run_forms (Parser.sound_ofText s)
  refine ⟨hrun, fun program hprogram => ?_⟩
  have hparse : (Loop.forms.read []).run (.ofText s) =
      some (.ok program, (Parser.ofText s).parse.2) :=
    hrun.trans (congrArg some (Prod.ext hprogram rfl))
  have hpaid := (loop_ends .forms [] (.ofText s)).of_run hparse
  rw [PaidAll, Node.sizeAll, Nat.zero_add] at hpaid
  exact (Nat.le_add_right _ _).trans hpaid

/-- A minus sign and the number behind it are an operand of two nodes, in a text of five tokens. -/
theorem parsing_always_ends_sign :
    ∃ program, parse (utf8 "(stdout - 1)") = .ok program ∧
      Node.sizeAll program ≤ (tokenize (utf8 "(stdout - 1)")).1.length := by
  have hparsed : (parse (utf8 "(stdout - 1)")).toOption.isSome = true := by decide +kernel
  rcases hp : parse (utf8 "(stdout - 1)") with _ | program
  · rw [hp] at hparsed
    cases hparsed
  · exact ⟨program, rfl, (parsing_always_ends.2.2.2 _).2 program hp⟩

end PrefixForth
