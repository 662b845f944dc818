import PrefixForth.Proofs.Tree.Relocation

/-!
# Looking ahead

A lexer may hold a token that has been looked at, it may stand at the end of the text or before an
error, and the place where the end is reported moves with every token. All that a caller can see of
this is the *stock* of the lexer: the tokens still to come, the error after them, if there is one, and
the place of the end. A call of `next` answers with the front of the stock and takes it away; a call
of `peek` answers the same and leaves the stock as it is (`Lexer.answer_eq`, `Lexer.stock_call`). At the
end of the stock nothing is taken away any more, since a scan that has met the end or an error meets it
again (`Cursor.scan_again`).

Main statement: `peeking_is_invisible`.
-/

namespace PrefixForth

/-- The error of a reading, if it is one. -/
def Reading.error? : Reading → Option LexicalError
  | .failed e => some e
  | _ => none

namespace Lexer

/-! ### Calls and what they answer -/

/-- What a lexer is asked for. -/
inductive Call where
  /-- The next token, which is taken. -/
  | next
  /-- A look at the next token. -/
  | peek
  deriving DecidableEq, Repr

/-- A caller is given a token, and an error if there is one. -/
abbrev Answer := Token × Option LexicalError

/-- Carries a call out. -/
def call (l : Lexer) : Call → Reading × Lexer
  | .next => l.next
  | .peek => l.peek

/-- What the caller is given. -/
def answer (l : Lexer) (c : Call) : Answer :=
  ((l.call c).2.tokenOf (l.call c).1, (l.call c).1.error?)

/-- The lexer after some calls. -/
def after (l : Lexer) (calls : List Call) : Lexer :=
  calls.foldl (fun l c => (l.call c).2) l

/-- The answers to the calls of `next` among some calls, in order. -/
def taken : Lexer → List Call → List Answer
  | _, [] => []
  | l, .next :: calls => l.answer .next :: (l.call .next).2.taken calls
  | l, .peek :: calls => (l.call .peek).2.taken calls

end Lexer

open Lexer

/-- What the token number `k` of a text is, counted from 0: past the last token it is the end of the
text, just behind that token, with the error of the text, if there is one. -/
def delivery (s : Bytes) (k : Nat) : Answer :=
  match (tokenize s).1[k]? with
  | some t => (t, none)
  | none => (.atEnd (lastEnding .unknown (tokenize s).1), (tokenize s).2)

/-! ### Stocks -/

/-- What is still to come: tokens, an error after them, and the place of the end. -/
structure Stock where
  tokens : List Token
  error : Option LexicalError
  ending : Position

namespace Stock

/-- The first token, or the end with the error. -/
def front (k : Stock) : Answer :=
  match k.tokens with
  | t :: _ => (t, none)
  | [] => (.atEnd k.ending, k.error)

/-- The stock without its first `n` tokens. -/
def drop (k : Stock) (n : Nat) : Stock :=
  { k with tokens := k.tokens.drop n }

@[simp]
theorem drop_zero (k : Stock) : k.drop 0 = k := rfl

/-- Taking in two parts is taking all. -/
theorem drop_drop (k : Stock) (m n : Nat) : (k.drop m).drop n = k.drop (m + n) := by
  simp [drop]

end Stock

/-! ### The end and errors stay -/

/-- A scan that finds no token finds the same again from where it stopped. -/
theorem Cursor.scan_again {c c' : Cursor} {reading : Reading} (h : c.scan = (reading, c'))
    (hnone : ∀ t, reading ≠ .token t) : c'.scan = (reading, c') := by
  fun_induction scan c with
  | case1 c hbest =>
    -- nothing was skipped, so the cursor has not moved
    cases h
    exact scan_of_unmatched (bestMatch_eq_none_iff.mp hbest)
  | case2 c r n hbest haction ih => exact ih h
  | case3 c r n hbest kind haction =>
    cases h
    exact absurd rfl (hnone _)
  | case4 c r n hbest haction =>
    cases h
    exact absurd rfl (hnone _)
  | case5 c r n hbest fault haction =>
    cases h
    exact scan_eq_failed_iff.mpr (.malformed (wins_of_bestMatch hbest) haction)
  | case6 c r n hbest haction =>
    cases h
    exact scan_eq_failed_iff.mpr (.unterminated (wins_of_bestMatch hbest) haction)

/-! ### A lexer by its stock -/

namespace Lexer

/-- What is still to come from a lexer, a token that was looked at included. -/
def stock (l : Lexer) : Stock :=
  ⟨l.lookahead.toList ++ l.cursor.tokens.1, l.cursor.tokens.2, lastEnding l.ending l.cursor.tokens.1⟩

variable {l : Lexer}

/-- A token that is scanned comes off the stock. -/
theorem stock_of_scan_token {c : Cursor} {t : Token} (hl : l.lookahead = none)
    (h : l.cursor.scan = (.token t, c)) (look : Option Token) :
    l.stock.tokens = t :: c.tokens.1 ∧
      stock ⟨c, look, c.position⟩ = { l.stock with tokens := look.toList ++ c.tokens.1 } := by
  simp [stock, hl, Cursor.tokens_of_token h, Cursor.position_of_scan h, lastEnding]

/-- Where no token is left, there are no tokens in the stock, and scanning does not change it. -/
theorem stock_of_scan_none {c : Cursor} {reading : Reading} (hl : l.lookahead = none)
    (h : l.cursor.scan = (reading, c)) (hnone : ∀ t, reading ≠ .token t) :
    l.stock = ⟨[], reading.error?, l.ending⟩ ∧ stock ⟨c, none, l.ending⟩ = l.stock := by
  have hagain := Cursor.scan_again h hnone
  cases reading with
  | token t => exact absurd rfl (hnone t)
  | ended =>
    simp [stock, hl, Cursor.tokens_of_ended h, Cursor.tokens_of_ended hagain, lastEnding,
      Reading.error?]
  | failed e =>
    simp [stock, hl, Cursor.tokens_of_failed h, Cursor.tokens_of_failed hagain, lastEnding,
      Reading.error?]

/-- How many tokens a call takes. -/
def Call.takes : Call → Nat
  | .next => 1
  | .peek => 0

/-- A call answers with the front of the stock, and only `next` takes it away. -/
theorem call_spec (l : Lexer) (c : Call) :
    l.answer c = l.stock.front ∧ (l.call c).2.stock = l.stock.drop c.takes := by
  rcases hlook : l.lookahead with _ | t
  · rcases hscan : l.cursor.scan with ⟨reading, cursor⟩
    by_cases htoken : ∃ t, reading = .token t
    · obtain ⟨t, rfl⟩ := htoken
      have hread : l.read = (.token t, ⟨cursor, none, cursor.position⟩) := by rw [read, hscan]
      cases c with
      | next =>
        have hcall : l.call .next = (.token t, ⟨cursor, none, cursor.position⟩) := by
          rw [call, next, hlook]
          exact hread
        obtain ⟨htokens, hstock⟩ := stock_of_scan_token hlook hscan none
        rw [answer, hcall, hstock, Stock.front, Stock.drop, htokens]
        exact ⟨rfl, rfl⟩
      | peek =>
        have hcall : l.call .peek = (.token t, ⟨cursor, some t, cursor.position⟩) := by
          simp only [call, peek, hlook, hread]
        obtain ⟨htokens, hstock⟩ := stock_of_scan_token hlook hscan (some t)
        rw [answer, hcall, hstock, Stock.front, Stock.drop, htokens]
        exact ⟨rfl, rfl⟩
    · -- at the end and before an error there is nothing to hold, so both calls do the same
      have hnone : ∀ t, reading ≠ .token t := fun t ht => htoken ⟨t, ht⟩
      have hcall : l.call c = (reading, ⟨cursor, none, l.ending⟩) := by
        cases reading with
        | token t => exact absurd rfl (hnone t)
        | ended | failed => cases c <;> simp [call, next, peek, hlook, read, hscan]
      obtain ⟨hempty, hstock⟩ := stock_of_scan_none hlook hscan hnone
      rw [answer, hcall, hstock, hempty]
      refine ⟨?_, by simp [Stock.drop]⟩
      cases reading with
      | token t => exact absurd rfl (hnone t)
      | ended | failed => rfl
  · cases c with
    | next => simp [answer, call, next, hlook, stock, Stock.front, Stock.drop, tokenOf,
        Reading.error?, Call.takes]
    | peek => simp [answer, call, peek, hlook, stock, Stock.front, tokenOf, Reading.error?,
        Call.takes]

/-- The answer to a call is the front of the stock. -/
theorem answer_eq (l : Lexer) (c : Call) : l.answer c = l.stock.front :=
  (call_spec l c).1

/-- A call leaves the stock without what it takes. -/
theorem stock_call (l : Lexer) (c : Call) : (l.call c).2.stock = l.stock.drop c.takes :=
  (call_spec l c).2

/-- Calls take as many tokens off the stock as there are calls of `next` among them. -/
theorem stock_after (l : Lexer) (calls : List Call) :
    (l.after calls).stock = l.stock.drop (calls.count .next) := by
  induction calls generalizing l with
  | nil => rfl
  | cons c calls ih =>
    have hafter : l.after (c :: calls) = (l.call c).2.after calls := rfl
    rw [hafter, ih, stock_call, Stock.drop_drop]
    cases c <;> simp [Call.takes, Nat.add_comm]

private theorem taken_eq (l : Lexer) (calls : List Call) :
    l.taken calls = (List.range (calls.count .next)).map fun k => (l.stock.drop k).front := by
  induction calls generalizing l with
  | nil => rfl
  | cons c calls ih =>
    cases c with
    | next =>
      rw [taken, ih, answer_eq, stock_call, List.count_cons_self, List.range_succ_eq_map]
      simp [Stock.drop_drop, Call.takes, Nat.add_comm]
    | peek => simp [taken, ih, stock_call, Call.takes]

/-! ### A look and the call after it -/

/-- A scan that finds no token has come to a state that it does not leave. -/
theorem read_again (h : ∀ t, l.read.1 ≠ .token t) : l.read.2.read = l.read := by
  rcases hscan : l.cursor.scan with ⟨reading, c⟩
  cases reading with
  | token t => exact absurd (by rw [read, hscan]) (h t)
  | ended | failed =>
    have hagain := Cursor.scan_again hscan (by simp)
    simp only [read, hscan, hagain]

private theorem lookahead_read (l : Lexer) : l.read.2.lookahead = none := by
  rw [read]
  split <;> rfl

private theorem next_of_lookahead (h : l.lookahead = none) : l.next = l.read := by
  rw [next, h]

/-- Where there is no token, there is nothing to hold. -/
theorem peek_of_read (h : l.lookahead = none) (hnone : ∀ t, l.read.1 ≠ .token t) :
    l.peek = l.read := by
  rw [peek, h]
  simp only
  split
  · rename_i t l' hread
    exact absurd (by rw [hread]) (hnone t)
  · rfl

/-- A look changes nothing for the call after it. -/
theorem call_peek (l : Lexer) (c : Call) : l.peek.2.call c = l.call c := by
  rcases hlook : l.lookahead with _ | t
  · by_cases htoken : ∃ t, l.read.1 = .token t
    · obtain ⟨t, ht⟩ := htoken
      have hread : l.read = (.token t, ⟨l.read.2.cursor, none, l.read.2.ending⟩) :=
        Prod.ext ht (by rw [← l.lookahead_read])
      have hpeek : l.peek = (.token t, ⟨l.read.2.cursor, some t, l.read.2.ending⟩) := by
        rw [peek, hlook]
        simp only
        rw [hread]
      cases c with
      | next =>
        rw [call, call, next_of_lookahead hlook, hpeek]
        exact hread.symm
      | peek =>
        rw [call, call, hpeek]
        rfl
    · have hnone : ∀ t, l.read.1 ≠ .token t := fun t ht => htoken ⟨t, ht⟩
      have hagain := read_again hnone
      rw [peek_of_read hlook hnone]
      cases c with
      | next => rw [call, call, next_of_lookahead l.lookahead_read, next_of_lookahead hlook, hagain]
      | peek =>
        rw [call, call, peek_of_read hlook hnone, peek_of_read l.lookahead_read (by rwa [hagain]),
          hagain]
  · have hpeek : l.peek = (.token t, l) := by rw [peek, hlook]
    rw [hpeek]

/-- Where there is no token, both calls do the same. -/
theorem next_of_peek (h : ∀ t, l.peek.1 ≠ .token t) : l.next = l.peek := by
  rcases hlook : l.lookahead with _ | t
  · have hnone : ∀ t, l.read.1 ≠ .token t := by
      intro t ht
      refine h t ?_
      rw [peek, hlook]
      simp only
      split
      · rename_i hread
        rw [hread] at ht
        exact ht
      · exact ht
    rw [next_of_lookahead hlook, peek_of_read hlook hnone]
  · exact absurd (by rw [peek, hlook]) (h t)

/-! ### Whole texts -/

/-- At the start of a text, the stock is what the text delivers. -/
theorem front_drop_stock_ofText (s : Bytes) (k : Nat) :
    ((Lexer.ofText s).stock.drop k).front = delivery s k := by
  have htokens : (Lexer.ofText s).stock.tokens = (tokenize s).1 := rfl
  rw [Stock.front, Stock.drop, delivery, htokens, ← List.head?_drop]
  cases (tokenize s).1.drop k <;> rfl

end Lexer

/-- **Peeking is invisible, and errors stay.** Whatever calls of `next` and `peek` were made, either
call now answers with the token whose number is the count of the calls of `next` so far; past the last
token, with the end of the text and the first error of the text, if it has one, each time the same. So
the answers to the calls of `next` are the tokens of the text in order and then its end, as many as
there are calls of `next`, whatever calls of `peek` there are between them. -/
theorem peeking_is_invisible (s : Bytes) (calls : List Call) :
    (∀ c : Call, ((Lexer.ofText s).after calls).answer c = delivery s (calls.count .next)) ∧
      (Lexer.ofText s).taken calls = (List.range (calls.count .next)).map (delivery s) := by
  refine ⟨fun c => ?_, ?_⟩
  · rw [answer_eq, stock_after, front_drop_stock_ofText]
  · rw [taken_eq]
    exact List.map_congr_left fun k _ => front_drop_stock_ofText s k

end PrefixForth
