import PrefixForth.Proofs.Token.Juxtaposition
import PrefixForth.Proofs.Tree.Parsing

/-!
# Forms at other places and behind other forms

A parser never looks at positions, it only passes them on, and never at the forms that are complete.
So whatever map of positions is applied to the tokens, the states and the faults, and whatever forms
come before those that are read, a step of the open forms commutes with it (`FormState.step_place`).

`FormState.outcome` says in full what the tokens of a text and the error after them lead to, faults
and their positions included; it is what the parser computes (`parse_eq_outcome`).

Main statement: after a text that is parsed, another one is parsed as it is by itself, but for its
place (`parse_append`).
-/

namespace PrefixForth

open Grammar

/-! ### Trees, faults and states at other places -/

mutual

/-- The tree at another place. -/
def Node.relocate (f : Position → Position) : Node → Node
  | .mk t cs => .mk (t.relocate f) (Node.relocateAll f cs)

/-- The trees at another place. -/
def Node.relocateAll (f : Position → Position) : List Node → List Node
  | [] => []
  | c :: cs => c.relocate f :: Node.relocateAll f cs

end

private theorem Node.relocateAll_eq_map (f : Position → Position) (cs : List Node) :
    Node.relocateAll f cs = cs.map (Node.relocate f) := by
  induction cs with
  | nil => rfl
  | cons c cs ih => rw [Node.relocateAll, ih, List.map_cons]

/-- A node is moved with its children. -/
theorem Node.relocate_mk (f : Position → Position) (t : Token) (cs : List Node) :
    (Node.mk t cs).relocate f = .mk (t.relocate f) (cs.map (Node.relocate f)) := by
  rw [Node.relocate, Node.relocateAll_eq_map]

private theorem Node.relocate_leaf (f : Position → Position) (t : Token) :
    (Node.leaf t).relocate f = .leaf (t.relocate f) :=
  relocate_mk f t []

/-- The fault at another place. -/
def ParsingFault.relocate (f : Position → Position) : ParsingFault → ParsingFault
  | notClosed opened found => notClosed (f opened) (found.relocate f)
  | notOpened found => notOpened (found.relocate f)
  | notTopLevel found => notTopLevel (found.relocate f)
  | notForm found => notForm (found.relocate f)
  | badHead found => badHead (found.relocate f)
  | badTarget found => badTarget (found.relocate f)
  | badOperand found => badOperand (found.relocate f)
  | badBinding found => badBinding (found.relocate f)
  | badBindingName found => badBindingName (found.relocate f)
  | badBindingType name found => badBindingType name (found.relocate f)
  | emptyForm => emptyForm
  | unknownStatement word => unknownStatement word
  | missingOperand => missingOperand
  | minusOperands count => minusOperands count
  | noBindings => noBindings

/-- The fault at another place. Semantic faults have none. -/
def Fault.relocate (f : Position → Position) : Fault → Fault
  | lexical e => lexical (e.relocate f)
  | parsing e q => parsing (e.relocate f) (f q)
  | semantic e => semantic e

/-- The reason of a fault does not depend on positions. -/
theorem ParsingFault.reason_relocate (f : Position → Position) (e : ParsingFault) :
    (e.relocate f).reason = e.reason := by
  cases e <;> rfl

/-- The stage and the reason of a fault do not depend on its place. -/
theorem Fault.report_relocate (f : Position → Position) (e : Fault) :
    (e.relocate f).report.stage = e.report.stage ∧
      (e.relocate f).report.reason = e.report.reason := by
  cases e with
  | lexical e => exact ⟨rfl, rfl⟩
  | parsing e q => exact ⟨rfl, e.reason_relocate f⟩
  | semantic e => exact ⟨rfl, rfl⟩

/-- The open form at another place. -/
def Operands.relocate (f : Position → Position) (o : Operands) : Operands :=
  ⟨o.paren.relocate f, o.head.relocate f, o.arity, o.done.map (Node.relocate f),
    o.signs.map (Token.relocate f)⟩

/-- What the innermost form waits for, at another place. -/
def Focus.relocate (f : Position → Position) : Focus → Focus
  | top => top
  | head paren => head (paren.relocate f)
  | target paren op => target (paren.relocate f) (op.relocate f)
  | operands o => operands (o.relocate f)
  | bindings paren op done =>
    bindings (paren.relocate f) (op.relocate f) (done.map (Node.relocate f))
  | bindingName paren op done inner =>
    bindingName (paren.relocate f) (op.relocate f) (done.map (Node.relocate f)) (inner.relocate f)
  | bindingType paren op done inner name =>
    bindingType (paren.relocate f) (op.relocate f) (done.map (Node.relocate f)) (inner.relocate f)
      (name.relocate f)
  | bindingEnd paren op done inner name type =>
    bindingEnd (paren.relocate f) (op.relocate f) (done.map (Node.relocate f)) (inner.relocate f)
      (name.relocate f) (type.relocate f)

/-- The forms at another place, behind other forms. -/
def Program.place (before : Program) (f : Position → Position) (p : Program) : Program :=
  before ++ p.map (Node.relocate f)

/-- The state at another place, behind other forms. -/
def FormState.place (before : Program) (f : Position → Position) (s : FormState) : FormState :=
  ⟨Program.place before f s.forms, s.focus.relocate f, s.around.map (Operands.relocate f),
    s.stale.map f⟩

/-- What a token does, at another place and behind other forms. -/
def FormStep.place (before : Program) (f : Position → Position) : FormStep → FormStep
  | next s => next (s.place before f)
  | done p => done (Program.place before f p)
  | fault e q taken => fault (e.relocate f) (f q) taken

/-! ### A step elsewhere -/

section Step

variable {before : Program} {f : Position → Position}

private theorem Operands.signed_relocate (signs : List Token) (n : Node) :
    signed (signs.map (Token.relocate f)) (n.relocate f) = (signed signs n).relocate f := by
  induction signs generalizing n with
  | nil => rfl
  | cons sign signs ih =>
    have hsign : Node.mk { sign.relocate f with kind := .unaryOperator } [n.relocate f] =
        (Node.mk { sign with kind := .unaryOperator } [n]).relocate f :=
      (Node.relocate_mk f { sign with kind := .unaryOperator } [n]).symm
    simp only [signed, List.map_cons, List.foldl_cons] at ih ⊢
    rw [hsign, ih]

/-- An operand that is moved is added to operands that are moved. -/
private theorem Operands.add_relocate (o : Operands) (n : Node) :
    (o.relocate f).add (n.relocate f) = (o.add n).relocate f := by
  simp only [add, relocate, signed_relocate, List.map_append, List.map_cons, List.map_nil]

private theorem Operands.isFull_relocate (o : Operands) : (o.relocate f).isFull = o.isFull := by
  simp [isFull, relocate]

private theorem Operands.isEnough_relocate (o : Operands) :
    (o.relocate f).isEnough = o.isEnough := by
  simp [isEnough, relocate]

private theorem Operands.close?_relocate (o : Operands) :
    (o.relocate f).close? = o.close?.map (Node.relocate f) := by
  have hkind : (o.relocate f).head.kind = o.head.kind := rfl
  have hhead : ∀ k, { (o.relocate f).head with kind := k } =
      Token.relocate f { o.head with kind := k } := fun _ => rfl
  have hdone : (o.relocate f).done = o.done.map (Node.relocate f) := rfl
  rw [close?, close?, hdone]
  by_cases hk : o.head.kind = .minus
  · rw [if_pos hk, if_pos (hkind.trans hk), hhead, hhead]
    -- a minus sign has a tree with one operand and with two
    rcases o.done with _ | ⟨a, _ | ⟨b, _ | ⟨c, ds⟩⟩⟩
    · rfl
    · simp only [List.map_cons, List.map_nil, Option.map_some, Node.relocate_mk]
    · simp only [List.map_cons, List.map_nil, Option.map_some, Node.relocate_mk]
    · rfl
  · rw [if_neg hk, if_neg fun h => hk (hkind.symm.trans h), Option.map_some, Node.relocate_mk]
    rfl

private theorem Focus.opened_relocate (focus : Focus) :
    (focus.relocate f).opened = focus.opened.map f := by
  cases focus <;> rfl

namespace FormState

variable (s : FormState) (t : Token)

/-- The open parentheses are moved with the forms. -/
private theorem opened_place : (s.place before f).opened = s.opened.map f := by
  simp only [opened, place, Focus.opened_relocate, List.map_append, List.map_map]
  rfl

/-- A missing parenthesis is reported where it is moved to. -/
private theorem mismatch_place (taken : Bool) :
    (s.place before f).mismatch (t.relocate f) taken = (s.mismatch t taken).place before f := by
  rw [mismatch, mismatch, opened_place]
  cases s.opened <;> rfl

/-- A form is completed where it is moved to. -/
private theorem complete_place (n : Node) :
    (s.place before f).complete (n.relocate f) = (s.complete n).place before f := by
  obtain ⟨forms, focus, around, stale⟩ := s
  cases around with
  | nil => simp [complete, place, Program.place, Focus.relocate]
  | cons o os => simp [complete, place, Focus.relocate, Operands.add_relocate]

/-- A form is closed where it is moved to. -/
private theorem closeWith_place (n : Node) :
    (s.place before f).closeWith (n.relocate f) (t.relocate f) =
      (s.closeWith n t).place before f := by
  rw [closeWith, closeWith, mismatch_place, complete_place]
  split
  · rename_i hk
    rw [if_pos (show t.kind = .closeParen from hk)]
    rfl
  · rename_i hk
    rw [if_neg (show ¬t.kind = .closeParen from hk)]

private theorem openHead_place (paren : Token) :
    (s.place before f).openHead (paren.relocate f) (t.relocate f) =
      (s.openHead paren t).place before f := by
  have hkind : (t.relocate f).kind = t.kind := rfl
  have htext : (t.relocate f).text = t.text := rfl
  simp only [openHead, mismatch_place, hkind, htext]
  cases t.kind with
  | statement => rcases Statement.ofKeyword? t.text with _ | _ | _ | _ | _ <;> rfl
  | _ => rfl

private theorem openOperand_place (o : Operands) :
    (s.place before f).openOperand (o.relocate f) (t.relocate f) =
      (s.openOperand o t).place before f := by
  have hkind : (t.relocate f).kind = t.kind := rfl
  simp only [openOperand, mismatch_place, hkind, ← Node.relocate_leaf, Operands.add_relocate]
  split
  · rfl
  · cases t.kind <;> rfl

/-- A step of the open forms commutes with moving everything to another place, behind other forms.
-/
theorem step_place :
    (s.place before f).step (t.relocate f) = (s.step t).place before f := by
  have hkind : (t.relocate f).kind = t.kind := rfl
  have hfocus : (s.place before f).focus = s.focus.relocate f := rfl
  rw [step, step, hfocus]
  -- a step looks at kinds and texts, and at positions only to report them
  cases hs : s.focus with
  | top =>
    simp only [Focus.relocate, mismatch_place, hkind]
    cases t.kind <;> rfl
  | head paren => exact openHead_place s t paren
  | target paren op =>
    simp only [Focus.relocate, hkind]
    split
    · simp only [FormStep.place, place, Focus.relocate, Operands.relocate, List.map_cons,
        List.map_nil, Node.relocate_leaf]
    · rfl
  | operands o =>
    simp only [Focus.relocate, Operands.isFull_relocate, Operands.isEnough_relocate, hkind,
      Operands.close?_relocate, openOperand_place]
    split
    · cases o.close? with
      | none => simp [FormStep.place, ParsingFault.relocate, Operands.relocate, Token.relocate]
      | some n => exact closeWith_place s t n
    · rfl
  | bindings paren op done =>
    simp only [Focus.relocate, hkind, List.isEmpty_map, ← Node.relocate_mk, closeWith_place]
    cases t.kind with
    | closeParen | endOfInput =>
      simp only
      split <;> rfl
    | _ => rfl
  | bindingName paren op done inner =>
    simp only [Focus.relocate, hkind]
    split <;> rfl
  | bindingType paren op done inner name =>
    simp only [Focus.relocate, hkind]
    split <;> rfl
  | bindingEnd paren op done inner name type =>
    simp only [Focus.relocate, hkind, mismatch_place]
    split
    · simp only [FormStep.place, place, Focus.relocate, List.map_append, List.map_cons,
        List.map_nil, Node.relocate_mk, Node.relocate_leaf]
    · rfl

end FormState

end Step

/-! ### Faults included -/

/-- The position just past a token. -/
def Token.ending (t : Token) : Position :=
  t.position.afterAll t.text

/-- The position just past the last of the tokens, or `q` if there is none. -/
def lastEnding (q : Position) (ts : List Token) : Position :=
  ts.foldl (fun _ t => t.ending) q

/-- What tokens, and the error or the end of the text after them, lead to from a state on. The end
of the text stands at `ending`. -/
def FormState.outcome (ending : Position) : FormState → List Token → Option LexicalError →
    Except Fault Program
  | _, [], some e => .error (.lexical e)
  | s, [], none =>
    match s.step (.atEnd ending) with
    | .next s' => .ok s'.forms
    | .done p => .ok p
    | .fault e q _ => .error (.parsing e q)
  | s, t :: ts, error =>
    match s.step t with
    | .next s' => s'.outcome ending ts error
    | .done p => .ok p
    | .fault e q _ => .error (.parsing e q)

namespace FormState

variable {s s' : FormState} {ending : Position} {error : Option LexicalError}

/-- Tokens that are taken are left behind. -/
theorem outcome_append {ts us : List Token} (h : s.readAll ts = some s') :
    s.outcome ending (ts ++ us) error = s'.outcome ending us error := by
  induction ts generalizing s with
  | nil =>
    cases h
    rfl
  | cons t ts ih =>
    rw [readAll] at h
    split at h
    · rename_i s₁ hstep
      rw [List.cons_append, outcome, hstep]
      exact ih h
    · cases h

/-- Where no form is open, it does not matter where the text ends. -/
theorem outcome_nil_of_top (h : s.focus = .top) (q : Position) :
    s.outcome ending [] error = s.outcome q [] error := by
  cases error with
  | some e => rfl
  | none =>
    have hdone : ∀ q, s.step (.atEnd q) = .done s.forms := fun q =>
      step_eq_done_iff.mpr ⟨rfl, h, rfl⟩
    rw [outcome, outcome, hdone, hdone]

end FormState

/-- What a reading of forms leads to, at another place and behind other forms. -/
def placeOutcome (before : Program) (f : Position → Position) :
    Except Fault Program → Except Fault Program
  | .ok p => .ok (Program.place before f p)
  | .error e => .error (e.relocate f)

/-- Reading commutes with moving everything to another place, behind other forms. -/
theorem FormState.outcome_place (before : Program) (f : Position → Position) (s : FormState)
    (ending : Position) (ts : List Token) (error : Option LexicalError) :
    (s.place before f).outcome (f ending) (ts.map (Token.relocate f))
        (error.map (LexicalError.relocate f)) =
      placeOutcome before f (s.outcome ending ts error) := by
  induction ts generalizing s with
  | nil =>
    cases error with
    | some e => rfl
    | none =>
      have hstep : (s.place before f).step (.atEnd (f ending)) =
          (s.step (.atEnd ending)).place before f := step_place s (.atEnd ending)
      rw [List.map_nil, Option.map_none, outcome, outcome, hstep]
      cases s.step (.atEnd ending) <;> rfl
  | cons t ts ih =>
    rw [List.map_cons, outcome, outcome, step_place]
    cases s.step t with
    | next s' => exact ih s'
    | done p => rfl
    | fault e q taken => rfl

/-! ### The parser -/

/-- The cursor stands where the token ends. -/
theorem Cursor.position_of_scan {c c' : Cursor} {t : Token} (h : c.scan = (.token t, c')) :
    c'.position = t.ending := by
  fun_induction scan c with
  | case1 c hnone => split at h <;> cases h
  | case2 c r n hbest haction ih => exact ih h
  | case3 c r n hbest kind haction =>
    cases h
    rfl
  | case4 c r n hbest haction =>
    cases h
    rfl
  | case5 c r n hbest fault haction => cases h
  | case6 c r n hbest haction => cases h

namespace Lexer

variable {l l' : Lexer} {t : Token}

/-- The lexer notes where the token ends that is taken. -/
theorem ending_of_peek_token (hl : l.lookahead = none) (h : l.peek = (.token t, l')) :
    l'.next.2.ending = t.ending := by
  rw [peek, hl, read] at h
  rcases hscan : l.cursor.scan with ⟨reading, c⟩
  cases reading with
  | token t' =>
    rw [hscan] at h
    cases h
    exact Cursor.position_of_scan hscan
  | ended | failed =>
    rw [hscan] at h
    cases h

/-- At the end of the text, the lexer knows where the last token ended. -/
theorem ending_of_peek_ended (hl : l.lookahead = none) (h : l.peek = (.ended, l')) :
    l'.ending = l.ending := by
  rw [peek, hl, read] at h
  rcases hscan : l.cursor.scan with ⟨reading, c⟩
  cases reading with
  | ended =>
    rw [hscan] at h
    cases h
    rfl
  | token | failed =>
    rw [hscan] at h
    cases h

end Lexer

/-- The parser finds the outcome. -/
theorem Parser.run_eq_outcome {l : Lexer} {s : FormState} (hl : l.lookahead = none) :
    (run l s).1 = s.outcome (lastEnding l.ending l.cursor.tokens.1) l.cursor.tokens.1
      l.cursor.tokens.2 := by
  fun_induction run l s with
  | case1 l s t l' hpeek s' hstep ih =>
    obtain ⟨c, hscan, hcursor, hlook⟩ := Lexer.scan_of_peek_token hl hpeek
    rw [ih hlook, hcursor, Cursor.tokens_of_token hscan, Lexer.ending_of_peek_token hl hpeek,
      FormState.outcome, hstep]
    rfl
  | case2 l s t l' hpeek p hstep =>
    obtain ⟨c, hscan, -, -⟩ := Lexer.scan_of_peek_token hl hpeek
    rw [Cursor.tokens_of_token hscan, FormState.outcome, hstep]
  | case3 l s t l' hpeek fault position taken hstep =>
    obtain ⟨c, hscan, -, -⟩ := Lexer.scan_of_peek_token hl hpeek
    rw [Cursor.tokens_of_token hscan, FormState.outcome, hstep]
  | case4 l s l' hpeek s' hstep => exact absurd hstep (FormState.step_ne_next_of_end rfl)
  | case5 l s l' hpeek p hstep =>
    obtain ⟨c, hscan⟩ := Lexer.scan_of_peek_ended hl hpeek
    rw [Lexer.ending_of_peek_ended hl hpeek] at hstep
    rw [Cursor.tokens_of_ended hscan, FormState.outcome, lastEnding, List.foldl_nil, hstep]
  | case6 l s l' hpeek fault position taken hstep =>
    obtain ⟨c, hscan⟩ := Lexer.scan_of_peek_ended hl hpeek
    rw [Lexer.ending_of_peek_ended hl hpeek] at hstep
    rw [Cursor.tokens_of_ended hscan, FormState.outcome, lastEnding, List.foldl_nil, hstep]
  | case7 l s e l' hpeek =>
    obtain ⟨c, hscan⟩ := Lexer.scan_of_peek_failed hl hpeek
    rw [Cursor.tokens_of_failed hscan, FormState.outcome]

/-- Parsing a text is reading its tokens, with the end of the text just past the last of them. -/
theorem parse_eq_outcome (s : Bytes) :
    parse s = FormState.outcome (lastEnding .unknown (tokenize s).1) {} (tokenize s).1
      (tokenize s).2 := by
  have hrun := Parser.run_eq_outcome (l := .ofText s) (s := {}) rfl
  exact hrun

/-! ### Two texts -/

/-- A form ends with its closing parenthesis. -/
private theorem Grammar.Form.exists_close {f : Form} (h : f.Valid) :
    ∃ ts close, f.tokens = ts ++ [close] ∧ close.kind = .closeParen := by
  cases f with
  | assignment paren head target value close =>
    rw [Form.Valid] at h
    exact ⟨paren :: head :: target :: value.tokens, close, by simp [Form.tokens], h.2.2.2.2⟩
  | operation paren head operands close =>
    rw [Form.Valid] at h
    exact ⟨paren :: head :: Operand.tokensAll operands, close, by simp [Form.tokens], h.2.2.2⟩
  | declaration paren head bindings close =>
    rw [Form.Valid] at h
    exact ⟨paren :: head :: bindings.flatMap Binding.tokens, close, by simp [Form.tokens],
      h.2.2.2.2.2⟩

/-- The tokens of forms end with a closing parenthesis. -/
theorem Grammar.Derivation.endsClosed {d : Derivation} (h : d.Valid) : EndsClosed d.tokens := by
  intro t ht
  rcases List.eq_nil_or_concat d with rfl | ⟨d, f, rfl⟩
  · cases ht
  · obtain ⟨ts, close, htokens, hclose⟩ := Form.exists_close (h f (by simp))
    have hlast : (Derivation.tokens (d.concat f)).getLast? = some close := by
      simp [Derivation.tokens, htokens]
    rw [hlast] at ht
    cases ht
    exact hclose

/-- Tokens that are read from a known position have known positions. -/
theorem Lexes.isKnown {c : Cursor} {ts : List Token} {error : Option LexicalError}
    (h : Lexes c ts error) (hc : c.position.isKnown = true) :
    ∀ t ∈ ts, t.position.isKnown = true := by
  induction h with
  | ended | stuck => simp
  | skip _ _ _ ih => exact ih (Position.isKnown_afterAll hc _)
  | token _ _ _ ih => exact List.forall_mem_cons.mpr ⟨hc, ih (Position.isKnown_afterAll hc _)⟩

/-- The end of tokens at another place. -/
theorem lastEnding_map_relocate {f : Position → Position} (hf : Position.Carries f)
    {ts : List Token} (hts : ∀ t ∈ ts, t.position.isKnown = true) (q : Position) :
    lastEnding (f q) (ts.map (Token.relocate f)) = f (lastEnding q ts) := by
  induction ts generalizing q with
  | nil => rfl
  | cons t ts ih =>
    rw [List.forall_mem_cons] at hts
    have hending : (t.relocate f).ending = f t.ending := (hf.afterAll hts.1 t.text).symm
    have := ih hts.2 t.ending
    rwa [← hending] at this

/-- What the last token is does not depend on the tokens before it. -/
private theorem lastEnding_append {q q' : Position} {ts us : List Token} (h : us ≠ []) :
    lastEnding q (ts ++ us) = lastEnding q' us := by
  obtain ⟨u, us, rfl⟩ := List.exists_cons_of_ne_nil h
  simp [lastEnding]

/-- Behind a text that is parsed, another one is parsed as it is by itself, but for its place: its
forms come after those of the first, and a fault is the same one, moved there. -/
theorem parse_append {s u : Bytes} {p : Program} (h : parse s = .ok p) :
    parse (s ++ u) = placeOutcome p (shiftPast s) (parse u) := by
  obtain ⟨ts, hts, d, hd, rfl, rfl⟩ := parse_eq_ok_iff_derivation.mp h
  rcases hu : tokenize u with ⟨us, error⟩
  have htokens := tokenize_append hts (Derivation.endsClosed hd) hu
  have hread := Derivation.readAll_tokens hd {} rfl rfl
  have hstate : ({ forms := d.program } : FormState) =
      ({} : FormState).place d.program (shiftPast s) := by
    simp [FormState.place, Program.place, Focus.relocate]
  rw [parse_eq_outcome, htokens, FormState.outcome_append hread, List.nil_append, hstate,
    parse_eq_outcome u, hu, ← FormState.outcome_place]
  by_cases hne : us = []
  · subst hne
    exact FormState.outcome_nil_of_top rfl _
  · -- the last token is one of the second text, and its end moves along with it
    have hknown : ∀ t ∈ us, t.position.isKnown = true :=
      (Lexes.iff_tokens_eq.mpr hu).isKnown rfl
    have hending : lastEnding .unknown (d.tokens ++ us.map (Token.relocate (shiftPast s))) =
        shiftPast s (lastEnding .unknown us) := calc
      _ = lastEnding (shiftPast s .unknown) (us.map (Token.relocate (shiftPast s))) :=
        lastEnding_append (by simpa using hne)
      _ = shiftPast s (lastEnding .unknown us) :=
        lastEnding_map_relocate (carries_shiftPast s) hknown .unknown
    rw [hending]

end PrefixForth
