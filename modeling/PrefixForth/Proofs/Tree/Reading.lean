import PrefixForth.Proofs.Token.Spelling
import PrefixForth.Tree.Parser

/-!
# Reading forms from a list of tokens

A parser looks at one token at a time and takes it from the lexer only if the open forms have a place
for it. The tokens can as well be cut off the text beforehand: `FormState.readAll` feeds the open
forms with a list of tokens, and a text is read without a fault exactly if its tokens are, and no form
is open after the last one (`parse_eq_ok_iff_readAll`).
-/

namespace PrefixForth

theorem toOption_eq_some_iff {ε α : Type} {result : Except ε α} {a : α} :
    result.toOption = some a ↔ result = .ok a := by
  cases result <;> simp [Except.toOption]

/-! ### The end of the text -/

namespace FormState

variable {s s' : FormState} {t : Token} {p : Program}

/-- The state after some tokens, if all of them are taken. -/
def readAll : FormState → List Token → Option FormState
  | s, [] => some s
  | s, t :: ts =>
    match s.step t with
    | .next s' => s'.readAll ts
    | _ => none

theorem readAll_cons_of_next {ts : List Token} (h : s.step t = .next s') :
    s.readAll (t :: ts) = s'.readAll ts := by
  rw [readAll, h]

/-- Tokens are read in two parts, the second from where the first ends. -/
theorem readAll_append {ts us : List Token} (h : s.readAll ts = some s') :
    s.readAll (ts ++ us) = s'.readAll us := by
  induction ts generalizing s with
  | nil =>
    cases h
    rfl
  | cons t ts ih =>
    rw [readAll] at h
    split at h
    · rename_i s'' hstep
      rw [List.cons_append, readAll_cons_of_next hstep, ih h]
    · cases h

/-- A missing parenthesis stops the reading. -/
theorem mismatch_ne_next {taken : Bool} : s.mismatch t taken ≠ .next s' := by
  rw [mismatch]
  split <;> simp

private theorem mismatch_ne_done {taken : Bool} : s.mismatch t taken ≠ .done p := by
  rw [mismatch]
  split <;> simp

/-- The end of the text has no place in an open form. -/
theorem step_ne_next_of_end (h : t.kind = .endOfInput) : s.step t ≠ .next s' := by
  rw [step]
  cases s.focus with
  | top | target | bindingName | bindingType => simp [h]
  | head => simpa [openHead, h] using mismatch_ne_next
  | bindingEnd => simpa [h] using mismatch_ne_next
  | operands o =>
    simp only [h]
    split
    · split
      · simpa [closeWith, h] using mismatch_ne_next
      · simp
    · simpa [openOperand, h, TokenKind.isOperand, TokenKind.isLiteral] using mismatch_ne_next
  | bindings paren head done =>
    simp only [h]
    split
    · simp
    · simpa [closeWith, h] using mismatch_ne_next

/-- Closing a form does not end the reading. -/
private theorem closeWith_ne_done {n : Node} : s.closeWith n t ≠ .done p := by
  rw [closeWith]
  split
  · simp
  · exact mismatch_ne_done

private theorem openHead_ne_done {paren : Token} : s.openHead paren t ≠ .done p := by
  rw [openHead]
  split
  case h_5 => split <;> simp
  case h_6 => exact mismatch_ne_done
  all_goals simp

private theorem openOperand_ne_done {o : Operands} : s.openOperand o t ≠ .done p := by
  rw [openOperand]
  split
  · simp
  · split
    case h_3 => exact mismatch_ne_done
    all_goals simp

/-- A sequence of forms ends with the end of the text, where no form is open. -/
theorem step_eq_done_iff : s.step t = .done p ↔
    t.kind = .endOfInput ∧ s.focus = .top ∧ s.forms = p := by
  rw [step]
  cases s.focus with
  | top => cases t.kind <;> simp [mismatch_ne_done]
  | head paren => simpa using openHead_ne_done
  | target | bindingName | bindingType =>
    simp only [reduceCtorEq, false_and, and_false, iff_false]
    split <;> simp
  | bindingEnd =>
    simp only [reduceCtorEq, false_and, and_false, iff_false]
    split
    · simp
    · exact mismatch_ne_done
  | operands o =>
    simp only [reduceCtorEq, false_and, and_false, iff_false]
    split
    · split
      · exact closeWith_ne_done
      · simp
    · exact openOperand_ne_done
  | bindings paren head done =>
    simp only [reduceCtorEq, false_and, and_false, iff_false]
    split
    case h_1 | h_4 => simp
    all_goals
      split
      · simp
      · exact closeWith_ne_done

end FormState

/-! ### Tokens on demand and all at once -/

namespace Lexer

variable {l l' : Lexer} {t : Token}

/-- Without a lookahead, a token that is seen is the next one of the text. -/
theorem scan_of_peek_token (hl : l.lookahead = none) (h : l.peek = (.token t, l')) :
    ∃ c, l.cursor.scan = (.token t, c) ∧ l'.next.2.cursor = c ∧ l'.next.2.lookahead = none := by
  rw [peek, hl, read] at h
  rcases hscan : l.cursor.scan with ⟨reading, c⟩
  cases reading with
  | token t' =>
    rw [hscan] at h
    cases h
    exact ⟨c, rfl, rfl, rfl⟩
  | ended | failed =>
    rw [hscan] at h
    cases h

/-- Without a lookahead, the end that is seen is the end of the text. -/
theorem scan_of_peek_ended (hl : l.lookahead = none) (h : l.peek = (.ended, l')) :
    ∃ c, l.cursor.scan = (.ended, c) := by
  rw [peek, hl, read] at h
  rcases hscan : l.cursor.scan with ⟨reading, c⟩
  cases reading with
  | ended => exact ⟨c, rfl⟩
  | token | failed =>
    rw [hscan] at h
    cases h

/-- Without a lookahead, the error that is seen is the one of the text. -/
theorem scan_of_peek_failed {e : LexicalError} (hl : l.lookahead = none)
    (h : l.peek = (.failed e, l')) : ∃ c, l.cursor.scan = (.failed e, c) := by
  rw [peek, hl, read] at h
  rcases hscan : l.cursor.scan with ⟨reading, c⟩
  cases reading with
  | failed e' =>
    rw [hscan] at h
    cases h
    exact ⟨c, rfl⟩
  | token | ended =>
    rw [hscan] at h
    cases h

end Lexer

/-! ### The parser -/

namespace Parser

/-- The tokens from the cursor on are read without a fault, up to the end of the text, and give the
forms. -/
def ReadsAll (c : Cursor) (s : FormState) (p : Program) : Prop :=
  c.tokens.2 = none ∧
    ∃ s', s.readAll c.tokens.1 = some s' ∧ s'.focus = .top ∧ s'.forms = p

/-- A run succeeds exactly if all tokens are read and no form is left open. -/
private theorem run_eq_ok_iff {l : Lexer} {s : FormState} {p : Program} (hl : l.lookahead = none) :
    (run l s).1 = .ok p ↔ ReadsAll l.cursor s p := by
  fun_induction run l s with
  | case1 l s t l' hpeek s' hstep ih =>
    obtain ⟨c, hscan, hcursor, hlook⟩ := Lexer.scan_of_peek_token hl hpeek
    rw [ih hlook, hcursor]
    simp only [ReadsAll, Cursor.tokens_of_token hscan, FormState.readAll_cons_of_next hstep]
  | case2 l s t l' hpeek p' hstep =>
    -- no token of a text is of the kind of its end
    obtain ⟨c, hscan, -, -⟩ := Lexer.scan_of_peek_token hl hpeek
    have hspell := Cursor.wellSpelled_of_scan hscan
    rw [Token.WellSpelled, (FormState.step_eq_done_iff.mp hstep).1] at hspell
    exact hspell.elim
  | case3 l s t l' hpeek fault position taken hstep =>
    obtain ⟨c, hscan, -, -⟩ := Lexer.scan_of_peek_token hl hpeek
    simp [ReadsAll, Cursor.tokens_of_token hscan, FormState.readAll, hstep]
  | case4 l s l' hpeek s' hstep => exact absurd hstep (FormState.step_ne_next_of_end rfl)
  | case5 l s l' hpeek p' hstep =>
    obtain ⟨c, hscan⟩ := Lexer.scan_of_peek_ended hl hpeek
    obtain ⟨-, hfocus, rfl⟩ := FormState.step_eq_done_iff.mp hstep
    simp [ReadsAll, Cursor.tokens_of_ended hscan, FormState.readAll, hfocus]
  | case6 l s l' hpeek fault position taken hstep =>
    obtain ⟨c, hscan⟩ := Lexer.scan_of_peek_ended hl hpeek
    have hopen : s.focus ≠ .top := fun hfocus => by
      rw [FormState.step_eq_done_iff.mpr ⟨rfl, hfocus, rfl⟩] at hstep
      cases hstep
    simp [ReadsAll, Cursor.tokens_of_ended hscan, FormState.readAll, hopen]
  | case7 l s e l' hpeek =>
    obtain ⟨c, hscan⟩ := Lexer.scan_of_peek_failed hl hpeek
    simp [ReadsAll, Cursor.tokens_of_failed hscan]

end Parser

/-- A text is read without a fault exactly if all its tokens are and no form is left open. -/
theorem parse_eq_ok_iff_readAll {s : Bytes} {p : Program} :
    parse s = .ok p ↔ ∃ ts, tokenize s = (ts, none) ∧
      ∃ s', FormState.readAll {} ts = some s' ∧ s'.focus = .top ∧ s'.forms = p := by
  rw [parse, Parser.parse, Parser.run_eq_ok_iff rfl]
  constructor
  · rintro ⟨hnone, h⟩
    exact ⟨_, Prod.ext rfl hnone, h⟩
  · rintro ⟨ts, htokens, h⟩
    have hcursor : (Cursor.ofText s).tokens = (ts, none) := htokens
    exact ⟨by rw [Parser.ofText, Lexer.ofText, hcursor],
      by rw [Parser.ofText, Lexer.ofText, hcursor]; exact h⟩

end PrefixForth
