import PrefixForth.Proofs.Tree.Descent
import PrefixForth.Proofs.Tree.Parentheses

/-!
# Procedures along a run

A parser takes one token after the other and keeps what it has read in open forms. The procedures of
`Descent` call each other instead, and note the open parentheses on a stack. Both read the same forms,
with the same faults, and leave the same parser behind (`Descent.run_forms`).

For that, a procedure is followed along a run. `Leads m p c Q` says that `m`, called with the parser `p`,
goes the way of a run that resumes after the step `c` of the open forms; wherever it asks for a token, its
stack has the parentheses that the tokens taken so far leave open. Such a statement is composed like the
procedure itself (`Leads.bind`, `leads_loop`), and each procedure has one:

* `close_leads`, `binding_leads` and `bindings_leads` for parentheses and declarations;
* `operandsTo_leads_of` and `operands_leads_of` for operands, counted or up to the end of the form;
* `parts_leads_of`, `form_leads_of` and `operand_leads` for forms, by induction on the tokens left;
* `forms_leads` for whole texts.
-/

namespace PrefixForth

open Descent Descent.Procedure

namespace Parser

variable {p : Parser} {s : FormState} {t : Token} {e : Fault}

/-- The token has been looked at and comes next. -/
def Faces (p : Parser) (t : Token) : Prop :=
  p.looked = p ∧ p.front = .ok t

private theorem faces_looked (h : p.front = .ok t) : p.looked.Faces t :=
  ⟨p.looked_looked, by rw [front_looked, h]⟩

private theorem Faces.eq_of_front {t' : Token} (h : p.Faces t) (h' : p.front = .ok t') : t' = t :=
  Except.ok.inj (h'.symm.trans h.2)

/-- No token to come is taken for the end of the text. -/
def Sound (p : Parser) : Prop :=
  ∀ t ∈ p.pending, t.kind ≠ .endOfInput

theorem Sound.taken (h : p.Sound) : p.taken.Sound := fun t ht => by
  rw [pending_taken] at ht
  exact h t (List.mem_of_mem_tail ht)

theorem Sound.looked (h : p.Sound) : p.looked.Sound := fun t ht => by
  rw [pending_looked] at ht
  exact h t ht

/-- Of the tokens of a text, none is of the kind of its end. -/
theorem sound_ofText (s : Bytes) : (ofText s).Sound := fun t ht hkind => by
  have hspell := spells_of_mem_tokenize (s := s) ht
  rw [Token.WellSpelled, hkind] at hspell
  exact hspell

end Parser

/-! ### The run of a parser by its front -/

/-- The token is taken from the lexer. -/
def FormStep.takes : FormStep → Bool
  | .next _ => true
  | .done _ => false
  | .fault _ _ taken => taken

namespace Parser

variable {p : Parser} {s : FormState} {t : Token} {e : Fault}

/-- How the reading ends after a step, where this parser reads on. -/
def resume (p : Parser) : FormStep → Except Fault Program × Parser
  | .next s => run p.lexer s
  | .done program => (.ok program, p)
  | .fault fault q _ => (.error (.parsing fault q), p)

private theorem look_of_peek {reading : Reading} {l : Lexer} (h : p.lexer.peek = (reading, l)) :
    p.looked = { p with lexer := l } ∧
      p.front = match reading with
        | .failed error => .error (.lexical error)
        | _ => .ok (l.tokenOf reading) := by
  have hlook := run_look p
  rw [Procedure.run, h] at hlook
  refine ⟨by rw [looked, h], ?_⟩
  cases reading with
  | token | ended | failed => exact (Prod.mk.inj (Option.some.inj hlook)).1.symm

/-- A token that is looked at is to come. -/
theorem mem_pending_of_peek {l : Lexer} (h : p.lexer.peek = (.token t, l)) : t ∈ p.pending := by
  have hlook : l.lookahead = some t := by
    rw [Lexer.peek] at h
    split at h
    · rename_i hlook
      cases h
      exact hlook
    · split at h
      · cases h
        rfl
      · rename_i hne
        exact absurd h (hne t l)
  have hstock : l.stock = p.lexer.stock := by
    have hcall := p.lexer.stock_call .peek
    rw [Lexer.call, h] at hcall
    exact hcall
  rw [pending, ← hstock, Lexer.stock, hlook]
  exact List.mem_cons_self

private theorem taken_of_peek (h : ∀ t, p.lexer.peek.1 ≠ .token t) : p.taken = p.looked := by
  rw [taken, looked, Lexer.next_of_peek h]

private theorem taken_of_front_error (h : p.front = .error e) : p.taken = p.looked := by
  refine taken_of_peek fun t ht => ?_
  simp [(look_of_peek (Prod.ext ht rfl)).2] at h

/-- At the end of the text, taking does what looking does. -/
theorem Sound.taken_of_front (hp : p.Sound) (h : p.front = .ok t) (hkind : t.kind = .endOfInput) :
    p.taken = p.looked := by
  refine taken_of_peek fun t' ht => hp t' (mem_pending_of_peek (Prod.ext ht rfl)) ?_
  have hfront := (look_of_peek (Prod.ext ht rfl)).2
  obtain rfl : t = t' := Except.ok.inj (h.symm.trans hfront)
  exact hkind

/-- What the front does to the open forms is all that a run does with it. -/
theorem run_of_front (hopened : p.opened = s.opened) (h : p.front = .ok t) :
    run p.lexer s = (if (s.step t).takes then p.taken else p.looked).resume (s.step t) := by
  rw [run]
  split
  · rename_i t' l' hpeek
    obtain ⟨hlooked, hfront⟩ := look_of_peek hpeek
    obtain rfl : t = t' := Except.ok.inj (h.symm.trans hfront)
    have htaken : p.taken = ⟨l'.next.2, s.opened⟩ := by
      rw [← taken_looked, hlooked, taken, hopened]
    rw [htaken, hlooked, hopened]
    rcases s.step t with s' | program | ⟨fault, q, _ | _⟩ <;> rfl
  · rename_i l' hpeek
    obtain ⟨hlooked, hfront⟩ := look_of_peek hpeek
    obtain rfl : t = .atEnd l'.ending := Except.ok.inj (h.symm.trans hfront)
    have htaken : p.taken = p.looked := taken_of_peek (by simp [hpeek])
    rw [htaken, ite_self, hlooked, hopened]
    -- at the end of the text there is nothing to take, so it does not matter whether the step takes it
    rcases hstep : s.step (.atEnd l'.ending) with s' | program | ⟨fault, q, taken⟩
    · exact absurd hstep (FormState.step_ne_next_of_end rfl)
    · rfl
    · rfl
  · rename_i hpeek
    simp [(look_of_peek hpeek).2] at h

/-- An error ends the run, and is not taken. -/
private theorem run_of_front_error (hopened : p.opened = s.opened) (h : p.front = .error e) :
    run p.lexer s = (.error e, p.looked) := by
  rw [run]
  split
  · rename_i hpeek
    simp [(look_of_peek hpeek).2] at h
  · rename_i hpeek
    simp [(look_of_peek hpeek).2] at h
  · rename_i hpeek
    obtain ⟨hlooked, hfront⟩ := look_of_peek hpeek
    rw [Except.error.inj (h.symm.trans hfront), hlooked, hopened]

/-- Looking at a token does not change how a run goes on. -/
theorem run_looked (hopened : p.opened = s.opened) : run p.looked.lexer s = run p.lexer s := by
  have hopened' : p.looked.opened = s.opened := hopened
  cases h : p.front with
  | error e =>
    rw [run_of_front_error hopened h, run_of_front_error hopened' (p.front_looked.trans h),
      looked_looked]
  | ok t =>
    rw [run_of_front hopened h, run_of_front hopened' (p.front_looked.trans h), looked_looked,
      taken_looked]

/-! ### Parentheses that a parser has left open -/

/-- The parentheses at the positions are open, if those of the stack that the parser had at the origin
were open there: the tokens taken since then leave them so. -/
def OpenSince (p origin : Parser) (ps : List Position) : Prop :=
  ∃ ts, origin.pending = ts ++ p.pending ∧
    ∀ before, LeavesOpen before origin.opened → LeavesOpen (before ++ ts) ps

private theorem openSince_self (p : Parser) : p.OpenSince p p.opened :=
  ⟨[], rfl, fun before h => by rwa [List.append_nil]⟩

variable {origin : Parser} {ps : List Position} {c : FormStep}

theorem OpenSince.looked (h : p.OpenSince origin ps) : p.looked.OpenSince origin ps := by
  rw [OpenSince, pending_looked]
  exact h

/-- The parentheses of the open forms are open, if there are any after the step. -/
def OpenAfter (p origin : Parser) : FormStep → Prop
  | .next s => p.OpenSince origin s.opened
  | .done _ | .fault .. => True

/-- After the last step there is nothing to be open. -/
private theorem openAfter_of_ne_next (h : ∀ s, c ≠ .next s) : p.OpenAfter origin c := by
  cases c with
  | next s => exact absurd rfl (h s)
  | done | fault => exact trivial

/-- A token that is taken leaves the parentheses open that the forms have after it. -/
theorem OpenSince.taken (h : p.OpenSince origin s.opened) (ht : p.front = .ok t) :
    p.taken.OpenAfter origin (s.step t) := by
  cases hstep : s.step t with
  | done | fault => exact trivial
  | next s' =>
    obtain ⟨ts, hpending, hopen⟩ := h
    have hkind : t.kind ≠ .endOfInput := fun hend => FormState.step_ne_next_of_end hend hstep
    refine ⟨ts ++ [t], ?_, fun before hbefore => ?_⟩
    · rw [hpending, pending_of_front ht hkind, List.append_assoc]
      rfl
    · rw [← List.append_assoc]
      exact (hopen before hbefore).concat (FormState.tracks_of_step hstep).1

end Parser

namespace FormState

private theorem opened_focusOn (s : FormState) (f : Focus) :
    (s.focusOn f).opened = f.opened ++ (s.around.map (·.paren.position) ++ s.stale) := by
  rw [opened, List.append_assoc]
  rfl

private theorem complete_focusOn (s : FormState) (f : Focus) (n : Node) :
    (s.focusOn f).complete n = s.complete n := by
  rw [complete, complete]
  rfl

/-- An operand is waited for unless the form is full or may end, and ends. -/
theorem step_operand {s : FormState} {o : Operands} {t : Token} (hfull : o.isFull = false)
    (h : o.isEnough = false ∨ endsOperands t = false) :
    (s.focusOn (.operands o)).step t = (s.focusOn (.operands o)).openOperand o t := by
  have hnot : ¬(o.isFull = true ∨
      (o.isEnough = true ∧ (t.kind = .closeParen ∨ t.kind = .endOfInput))) := by
    simp only [endsOperands, Bool.or_eq_false_iff, decide_eq_false_iff_not] at h
    rintro (hf | ⟨he, ht⟩)
    · simp [hfull] at hf
    · rcases h with h | h
      · simp [h] at he
      · exact ht.elim h.1 h.2
  rw [step, focusOn]
  exact if_neg hnot

/-- A form that is full, or may end and does, is closed. -/
private theorem step_close {s : FormState} {o : Operands} {t : Token} {n : Node}
    (h : o.isFull = true ∨ (o.isEnough = true ∧ endsOperands t = true)) (hn : o.close? = some n) :
    (s.focusOn (.operands o)).step t = (s.focusOn (.operands o)).closeWith n t := by
  simp only [endsOperands, Bool.or_eq_true, decide_eq_true_eq] at h
  rw [step, focusOn]
  simp only [if_pos h, hn]

private theorem step_unclosed {s : FormState} {o : Operands} {t : Token}
    (henough : o.isEnough = true)
    (hends : endsOperands t = true) (hn : o.close? = none) :
    (s.focusOn (.operands o)).step t =
      .fault (.minusOperands o.done.length) o.head.position false := by
  simp only [endsOperands, Bool.or_eq_true, decide_eq_true_eq] at hends
  rw [step, focusOn]
  simp only [henough, hends, and_self, or_true, if_true, hn]

end FormState

namespace Descent

/-! ### Procedures that go the way of a run -/

section Leads

variable {α β : Type} {m : Procedure α} {f : α → Procedure β} {p : Parser} {c : FormStep}
  {s : FormState} {t : Token} {Q Q' : α → Parser → FormStep → Prop}
  {R : β → Parser → FormStep → Prop}

/-- The procedure goes the way of a run that resumes after the step `c`: where it asks for a token, its
stack has the parentheses that are open; where it gives up, the run ends with the same fault and the same
parser; and where it succeeds, the run resumes after another step, and `Q` holds there. -/
def Leads (m : Procedure α) (p : Parser) (c : FormStep) (Q : α → Parser → FormStep → Prop) : Prop :=
  ∀ origin : Parser, p.Sound → p.OpenAfter origin c →
    (∀ q, Asks m p q → q.OpenSince origin q.opened) ∧
    ∀ r p', m.run p = some (r, p') →
      match r with
      | .error e => p.resume c = (.error e, p')
      | .ok a => p'.Sound ∧ ∃ c', p.resume c = p'.resume c' ∧ p'.OpenAfter origin c' ∧ Q a p' c'

theorem Leads.pure {a : α} (h : Q a p c) : Leads (pure a) p c Q := by
  refine fun origin hp hopen => ⟨fun q hq => (Asks.inv hq).elim, fun r p' hrun => ?_⟩
  rw [run_pure] at hrun
  cases hrun
  exact ⟨hp, c, rfl, hopen, h⟩

/-- One procedure after the other. -/
theorem Leads.bind (h : Leads m p c Q)
    (hf : ∀ a p' c', m.run p = some (.ok a, p') → Q a p' c' → Leads (f a) p' c' R) :
    Leads (m >>= f) p c R := by
  intro origin hp hopen
  obtain ⟨hasks, hlead⟩ := h origin hp hopen
  refine ⟨fun q hq => ?_, fun r p'' hrun => ?_⟩
  · rcases Asks.inv hq with hfirst | ⟨a, p', hm, hsecond⟩
    · exact hasks q hfirst
    · obtain ⟨hp', c', -, hopen', hQ⟩ := hlead _ p' hm
      exact (hf a p' c' hm hQ origin hp' hopen').1 q hsecond
  · rw [run_bind] at hrun
    obtain ⟨⟨result, p'⟩, hm, hthen⟩ := Option.bind_eq_some_iff.mp hrun
    have hresult := hlead result p' hm
    cases result with
    | error e =>
      cases hthen
      exact hresult
    | ok a =>
      obtain ⟨hp', c', hresume, hopen', hQ⟩ := hresult
      have hlead' := (hf a p' c' hm hQ origin hp' hopen').2 r p'' hthen
      rw [hresume]
      exact hlead'

/-- A weaker condition is led to as well. -/
theorem Leads.mono (h : Leads m p c Q) (hQ : ∀ a p' c', Q a p' c' → Q' a p' c') : Leads m p c Q' := by
  intro origin hp hopen
  obtain ⟨hasks, hlead⟩ := h origin hp hopen
  refine ⟨hasks, fun r p' hrun => ?_⟩
  have hresult := hlead r p' hrun
  cases r with
  | error e => exact hresult
  | ok a =>
    obtain ⟨hp', c', hresume, hopen', ha⟩ := hresult
    exact ⟨hp', c', hresume, hopen', hQ a p' c' ha⟩

/-- A part goes the way of the procedure that reads it, -/
theorem Leads.part {x : Part} {Q : Node → Parser → FormStep → Prop} (h : Leads x.body p c Q) :
    Leads x.read p c Q := fun origin hp hopen =>
  ⟨fun q hq => (h origin hp hopen).1 q (Asks.inv hq), by rw [run_part]; exact (h origin hp hopen).2⟩

/-- and a loop the way of a round and what is done after the round. -/
theorem Leads.loop {x : Loop} {done : List Node} {Q : List Node → Parser → FormStep → Prop}
    (h : Leads (x.round done >>= x.goOn) p c Q) : Leads (x.read done) p c Q := fun origin hp hopen =>
  ⟨fun q hq => (h origin hp hopen).1 q (Asks.inv hq), by rw [run_loop]; exact (h origin hp hopen).2⟩

/-- A token that is only looked at does what it does, if it is not taken or there is nothing to take. -/
theorem Leads.of_faces (h : Leads m p (s.step t) Q) (ht : p.Faces t) (hopened : p.opened = s.opened)
    (hstay : (s.step t).takes = false ∨ t.kind = .endOfInput) : Leads m p (.next s) Q := by
  intro origin hp _
  have hresume : p.resume (.next s) = p.resume (s.step t) := by
    rw [Parser.resume, Parser.run_of_front hopened ht.2]
    rcases hstay with hstay | hstay
    · rw [hstay, if_neg Bool.false_ne_true, ht.1]
    · rw [hp.taken_of_front ht.2 hstay, ite_self, ht.1]
  have hne : ∀ s', s.step t ≠ .next s' := fun s' hs' => by
    rcases hstay with hstay | hstay
    · rw [hs'] at hstay
      cases hstay
    · exact FormState.step_ne_next_of_end hstay hs'
  rw [hresume]
  exact h origin hp (Parser.openAfter_of_ne_next hne)

private theorem leads_fail {e : ParsingFault} {q : Position} {b : Bool} :
    Leads (fail e q) p (.fault e q b) Q := by
  refine fun _ _ _ => ⟨fun q hq => (Asks.inv hq).elim, fun r p' hrun => ?_⟩
  rw [run_fail] at hrun
  cases hrun
  rfl

/-- A fault about parentheses names the same one, by the stack and by the open forms. -/
theorem leads_mismatched {b : Bool} (hopened : p.opened = s.opened) :
    Leads (mismatched t) p (s.mismatch t b) Q := by
  refine fun _ _ _ => ⟨fun q hq => (Asks.inv hq).elim, fun r p' hrun => ?_⟩
  rw [run_mismatched] at hrun
  cases hrun
  rw [FormState.mismatch, ← hopened]
  cases p.opened <;> rfl

/-- The run goes on with these open forms, and the parser knows them. -/
def Reaches (s : FormState) (p : Parser) (c : FormStep) : Prop :=
  c = .next s ∧ p.opened = s.opened

/-- A token is taken where the open forms take it. -/
theorem leads_take (hopened : p.opened = s.opened)
    (htakes : ∀ t, p.front = .ok t → (s.step t).takes = true) :
    Leads take p (.next s) fun t p' c' =>
      p.front = .ok t ∧ p'.opened = s.opened ∧ c' = s.step t := by
  intro origin hp hopen
  refine ⟨fun q hq => ?_, fun r p' hrun => ?_⟩
  · obtain rfl : q = p := Asks.inv hq
    rw [hopened]
    exact hopen
  · rw [run_take] at hrun
    obtain ⟨hr, rfl⟩ := Prod.mk.inj (Option.some.inj hrun)
    cases r with
    | error e =>
      rw [Parser.resume, Parser.run_of_front_error hopened hr, Parser.taken_of_front_error hr]
    | ok t =>
      refine ⟨hp.taken, s.step t, ?_, Parser.OpenSince.taken hopen hr, hr, hopened, rfl⟩
      rw [Parser.resume, Parser.run_of_front hopened hr, htakes t hr, if_pos rfl]

/-- The token that was looked at is the one that is taken. -/
theorem leads_take_of (ht : p.front = .ok t) (hopened : p.opened = s.opened)
    (htakes : (s.step t).takes = true) :
    Leads take p (.next s) fun t' p' c' => t' = t ∧ p'.opened = s.opened ∧ c' = s.step t := by
  have hsame : ∀ t', p.front = .ok t' → t' = t := fun t' ht' => Except.ok.inj (ht'.symm.trans ht)
  refine (leads_take hopened fun t' ht' => hsame t' ht' ▸ htakes).mono ?_
  rintro t' p' c' ⟨ht', hopened', rfl⟩
  exact ⟨hsame t' ht', hopened', by rw [hsame t' ht']⟩

/-- Where no error is met, it does not matter whether an error is minded. -/
theorem leads_takeAnyway (ht : p.front = .ok t) (hopened : p.opened = s.opened)
    (htakes : (s.step t).takes = true) :
    Leads takeAnyway p (.next s) fun t' p' c' => t' = t ∧ p'.opened = s.opened ∧ c' = s.step t := by
  intro origin hp hopen
  obtain ⟨hasks, hlead⟩ := leads_take_of ht hopened htakes origin hp hopen
  refine ⟨fun q hq => ?_, fun r p' hrun => ?_⟩
  · obtain rfl : q = p := Asks.inv hq
    exact hasks q (.take q)
  · rw [run_takeAnyway_of ht, ← ht, ← run_take] at hrun
    exact hlead r p' hrun

/-- The two sides of a check on the token that is taken. -/
theorem leads_take_ite {C : Token → Prop} [DecidablePred C] {k : Token → Procedure α}
    {e : Token → ParsingFault} {s' : Token → FormState} (hopened : p.opened = s.opened)
    (hstep : ∀ t, s.step t = if C t then .next (s' t) else .fault (e t) t.position true)
    (hk : ∀ t p', take.run p = some (.ok t, p') → C t → p'.opened = s.opened →
      Leads (k t) p' (.next (s' t)) Q) :
    Leads (do let t ← take; if C t then k t else fail (e t) t.position) p (.next s) Q := by
  refine (leads_take hopened fun t _ => ?_).bind ?_
  · rw [hstep t]
    split <;> rfl
  · rintro t p' _ hrun ⟨-, hopened', rfl⟩
    rw [hstep t]
    split
    · rename_i hC
      exact hk t p' hrun hC hopened'
    · exact leads_fail

/-- A token that does not fit is taken. -/
theorem leads_take_fail {e : ParsingFault} {q : Position} (ht : p.front = .ok t)
    (hopened : p.opened = s.opened) (hstep : s.step t = .fault e q true) :
    Leads (do let _ ← take; fail e q) p (.next s) Q := by
  refine (leads_take_of ht hopened (by rw [hstep]; rfl)).bind ?_
  rintro _ p' _ - ⟨-, -, rfl⟩
  rw [hstep]
  exact leads_fail

/-- A token that does not fit is left. -/
theorem leads_stay_fail {e : ParsingFault} {q : Position} (ht : p.Faces t)
    (hopened : p.opened = s.opened) (hstep : s.step t = .fault e q false) :
    Leads (fail e q) p (.next s) Q := by
  refine Leads.of_faces ?_ ht hopened (.inl (by rw [hstep]; rfl))
  rw [hstep]
  exact leads_fail

/-- Looking at a token changes nothing, and the token stays to be faced. -/
theorem leads_look (hopened : p.opened = s.opened) :
    Leads look p (.next s) fun t p' c' => p'.Faces t ∧ Reaches s p' c' := by
  intro origin hp hopen
  refine ⟨fun q hq => ?_, fun r p' hrun => ?_⟩
  · obtain rfl : q = p := Asks.inv hq
    rw [hopened]
    exact hopen
  · rw [run_look] at hrun
    obtain ⟨hr, rfl⟩ := Prod.mk.inj (Option.some.inj hrun)
    cases r with
    | error e => exact Parser.run_of_front_error hopened hr
    | ok t =>
      exact ⟨hp.looked, .next s, (Parser.run_looked hopened).symm, Parser.OpenSince.looked hopen,
        Parser.faces_looked hr, rfl, hopened⟩

/-- A position that is noted changes the stack, not the run. -/
private theorem leads_push {q : Position} :
    Leads (push q) p (.next s) fun _ p' c' => p'.opened = q :: p.opened ∧ c' = .next s := by
  refine fun _ hp hopen => ⟨fun q hq => (Asks.inv hq).elim, fun r p' hrun => ?_⟩
  rw [run_push] at hrun
  cases hrun
  exact ⟨hp, .next s, rfl, hopen, rfl, rfl⟩

/-- A position that is forgotten changes the stack, not the run. -/
private theorem leads_pop :
    Leads pop p (.next s) fun _ p' c' => p'.opened = p.opened.tail ∧ c' = .next s := by
  refine fun _ hp hopen => ⟨fun q hq => (Asks.inv hq).elim, fun r p' hrun => ?_⟩
  rw [run_pop] at hrun
  cases hrun
  exact ⟨hp, .next s, rfl, hopen, rfl, rfl⟩

end Leads

/-- A loop goes the way of a run if its rounds do. -/
theorem leads_loop {loop : Loop} {I J : List Node → Parser → FormStep → Prop} {k : Nat}
    (hround : ∀ done p c, p.left < k → I done p c → Leads (loop.round done) p c fun r =>
      match r with
      | .again ns => I ns
      | .leave ns => J ns)
    (done : List Node) (p : Parser) (c : FormStep) (hp : p.left < k) (h : I done p c) :
    Leads (loop.read done) p c J := by
  induction hleft : p.left using Nat.strongRecOn generalizing done p c with
  | ind n ih =>
    refine .loop ((hround done p c hp h).bind fun r p' c' hrun hr => ?_)
    cases r with
    | leave ns => exact .pure hr
    | again ns =>
      have hlt : p'.left < p.left := ((round_ends loop done p).of_run hrun).2
      exact ih p'.left (hleft ▸ hlt) ns p' c' (hlt.trans hp) hr rfl

/-! ### The procedures for parts of forms -/

section Parts

variable {p : Parser} {s s' : FormState} {paren head : Token}

private theorem takes_mismatch (s : FormState) (t : Token) (b : Bool) :
    (s.mismatch t b).takes = b := by
  rw [FormState.mismatch]
  split <;> rfl

private theorem takes_openHead (s : FormState) (paren t : Token) :
    (s.openHead paren t).takes = true := by
  rw [FormState.openHead]
  split
  case h_5 => split <;> rfl
  case h_6 => exact takes_mismatch s t true
  all_goals rfl

/-- The parenthesis that closes a form is taken by the run and off the stack. -/
theorem close_leads (hopened : p.opened = s.opened)
    (hstep : ∀ t, p.front = .ok t →
      s.step t = if t.kind = .closeParen then .next s' else s.mismatch t true)
    (hs' : s'.opened = s.opened.tail) : Leads close p (.next s) fun _ => Reaches s' := by
  refine (leads_take hopened fun t ht => ?_).bind ?_
  · rw [hstep t ht]
    split
    · rfl
    · exact takes_mismatch s t true
  · rintro t p₁ _ - ⟨ht, hopened₁, rfl⟩
    rw [hstep t ht]
    split
    · refine leads_pop.mono ?_
      rintro _ p₂ _ ⟨hopened₂, rfl⟩
      exact ⟨rfl, by rw [hopened₂, hopened₁, hs']⟩
    · exact leads_mismatched hopened₁

/-- A declaration of one name is read as a run reads it. -/
theorem binding_leads {done : List Node} {t : Token}
    (hopened : p.opened = (s.focusOn (.bindings paren head done)).opened)
    (ht : p.front = .ok t) (hkind : t.kind = .openParen) :
    Leads binding p (.next (s.focusOn (.bindings paren head done))) fun b =>
      Reaches (s.focusOn (.bindings paren head (done ++ [b]))) := by
  have hparen : (s.focusOn (.bindings paren head done)).step t =
      .next (s.focusOn (.bindingName paren head done t)) := by
    simp only [FormState.step, FormState.focusOn, hkind]
  have hname : ∀ name, (s.focusOn (.bindingName paren head done t)).step name =
      if name.kind = .identifier then .next (s.focusOn (.bindingType paren head done t name))
      else .fault (.badBindingName name) name.position true := fun _ => rfl
  have htype : ∀ name type, (s.focusOn (.bindingType paren head done t name)).step type =
      if type.kind = .typeKeyword then .next (s.focusOn (.bindingEnd paren head done t name type))
      else .fault (.badBindingType name.text type) type.position true := fun _ _ => rfl
  have hend : ∀ name type u, (s.focusOn (.bindingEnd paren head done t name type)).step u =
      if u.kind = .closeParen then
        .next (s.focusOn (.bindings paren head (done ++ [.mk t [.leaf name, .leaf type]])))
      else (s.focusOn (.bindingEnd paren head done t name type)).mismatch u true := fun _ _ _ => rfl
  refine (leads_takeAnyway ht hopened (by rw [hparen]; rfl)).bind ?_
  rintro _ p₁ _ - ⟨rfl, hopened₁, rfl⟩
  rw [hparen]
  refine leads_push.bind ?_
  rintro _ p₂ _ - ⟨hopened₂, rfl⟩
  rw [hopened₁] at hopened₂
  refine leads_take_ite hopened₂ hname fun name p₃ _ _ hopened₃ => ?_
  refine leads_take_ite hopened₃ (htype name) fun type p₄ _ _ hopened₄ => ?_
  have hopened₅ : p₄.opened = (s.focusOn (.bindingEnd paren head done _ name type)).opened := hopened₄
  refine (close_leads hopened₅ (fun u _ => hend name type u) rfl).bind ?_
  intro _ p₅ c _ h₅
  exact .pure h₅

/-- The declarations of a form are read as a run reads them, up to its parenthesis. -/
theorem bindings_leads (hopened : p.opened = (s.focusOn (.bindings paren head [])).opened) :
    Leads (Loop.bindings.read []) p (.next (s.focusOn (.bindings paren head []))) fun ns p' c' =>
      Reaches (s.focusOn (.bindings paren head ns)) p' c' ∧
        ∃ t, p'.Faces t ∧ endsOperands t = true := by
  refine leads_loop (I := fun ns => Reaches (s.focusOn (.bindings paren head ns))) ?_ [] p _
    (Nat.lt_succ_self _) ⟨rfl, hopened⟩
  rintro done p _ - ⟨rfl, hopened⟩
  rw [Loop.round]
  refine (leads_look hopened).bind ?_
  rintro t p₁ _ - ⟨ht, rfl, hopened₁⟩
  split
  · rename_i hends
    exact .pure ⟨⟨rfl, hopened₁⟩, t, ht, hends⟩
  rename_i hends
  split
  · rename_i hkind
    exact (binding_leads hopened₁ ht.2 hkind).bind fun b p₂ c _ h => .pure h
  · rename_i hkind
    refine leads_take_fail ht.2 hopened₁ ?_
    simp only [endsOperands, Bool.or_eq_true, decide_eq_true_eq, not_or] at hends
    simp only [FormState.step, FormState.focusOn]
    split <;> simp_all

end Parts

/-- The innermost form has all its parts, and waits for its parenthesis. -/
def AwaitsClose (s : FormState) (paren : Token) (n : Node) (p : Parser) (c : FormStep) : Prop :=
  ∃ f : Focus, Reaches (s.focusOn f) p c ∧ f.opened = [paren.position] ∧
    ∀ t, p.front = .ok t → (s.focusOn f).step t = (s.focusOn f).closeWith n t

/-- A form with all its operands waits for its parenthesis. -/
private theorem awaitsClose_of_reaches {s : FormState} {paren head : Token} {a : Arity}
    {ns : List Node}
    {p : Parser} {c : FormStep} {n : Node}
    (h : Reaches (s.focusOn (.operands ⟨paren, head, a, ns, []⟩)) p c)
    (hends : a.most = some ns.length ∨
      a.least ≤ ns.length ∧ ∃ t, p.Faces t ∧ endsOperands t = true)
    (hn : (⟨paren, head, a, ns, []⟩ : Operands).close? = some n) : AwaitsClose s paren n p c := by
  refine ⟨_, h, rfl, fun t ht => FormState.step_close ?_ hn⟩
  rcases hends with hfull | ⟨henough, t', ht', hends⟩
  · exact .inl (by simp [Operands.isFull, hfull])
  · rw [ht'.eq_of_front ht]
    exact .inr ⟨by simp [Operands.isEnough, henough], hends⟩

/-- A form without a declaration is refused where its parenthesis should come. -/
private theorem declaration_leads {s : FormState} {paren head : Token} {ns : List Node} {p : Parser}
    {c : FormStep} {t : Token} (h : Reaches (s.focusOn (.bindings paren head ns)) p c)
    (ht : p.Faces t) (hends : endsOperands t = true) :
    Leads (if ns.isEmpty then fail .noBindings head.position else pure (.mk head ns)) p c
      (AwaitsClose s paren) := by
  have hstep : (s.focusOn (.bindings paren head ns)).step t =
      if ns.isEmpty then .fault .noBindings head.position false
      else (s.focusOn (.bindings paren head ns)).closeWith (.mk head ns) t := by
    simp only [endsOperands, Bool.or_eq_true, decide_eq_true_eq] at hends
    rcases hends with hkind | hkind <;> simp only [FormState.step, FormState.focusOn, hkind]
  obtain ⟨rfl, hopened⟩ := h
  split
  · rename_i hempty
    rw [if_pos hempty] at hstep
    exact leads_stay_fail ht hopened hstep
  · rename_i hempty
    rw [if_neg hempty] at hstep
    refine .pure ⟨_, ⟨rfl, hopened⟩, rfl, fun t' ht' => ?_⟩
    rw [ht.eq_of_front ht', hstep]

/-- A minus sign is classified by the number of its operands, as a run does it at the parenthesis. -/
private theorem minus_leads {s : FormState} {paren head : Token} {a : Arity} {ns : List Node}
    {p : Parser}
    {c : FormStep} {t : Token} (hkind : head.kind = .minus)
    (h : Reaches (s.focusOn (.operands ⟨paren, head, a, ns, []⟩)) p c)
    (henough : a.least ≤ ns.length) (ht : p.Faces t) (hends : endsOperands t = true) :
    Leads (minus head ns) p c (AwaitsClose s paren) := by
  have hclose : ∀ n, (⟨paren, head, a, ns, []⟩ : Operands).close? = some n → AwaitsClose s paren n p c :=
    fun n => awaitsClose_of_reaches h (.inr ⟨henough, t, ht, hends⟩)
  unfold minus
  split
  · exact .pure (hclose _ (by simp [Operands.close?, hkind]))
  · exact .pure (hclose _ (by simp [Operands.close?, hkind]))
  · rename_i hone htwo
    have hnone : (⟨paren, head, a, ns, []⟩ : Operands).close? = none := by
      rw [Operands.close?, if_pos hkind]
      split
      · rename_i n hns
        exact (hone n hns).elim
      · rename_i m n hns
        exact (htwo m n hns).elim
      · rfl
    obtain ⟨rfl, hopened⟩ := h
    exact leads_stay_fail ht hopened
      (FormState.step_unclosed (by simp [Operands.isEnough, henough]) hends hnone)

section Operands

variable {k : Nat}

/-- An operand that is waited for is read as a run reads it. -/
def OperandLeads (p : Parser) : Prop :=
  ∀ (s : FormState) (o : Operands), p.opened = (s.focusOn (.operands o)).opened →
    (∀ t, p.front = .ok t →
      (s.focusOn (.operands o)).step t = (s.focusOn (.operands o)).openOperand o t) →
    Leads Part.operand.read p (.next (s.focusOn (.operands o))) fun n =>
      Reaches (s.focusOn (.operands (o.add n)))

variable (hop : ∀ p : Parser, p.left < k → OperandLeads p) {s : FormState} {p : Parser}
  {paren head : Token} {a : Arity} {done : List Node}

include hop

private theorem operand_leads_of (hp : p.left < k)
    (hopened : p.opened = (s.focusOn (.operands ⟨paren, head, a, done, []⟩)).opened)
    (hfull : a.most ≠ some done.length)
    (hopen : ∀ t, p.front = .ok t → done.length < a.least ∨ endsOperands t = false) :
    Leads Part.operand.read p (.next (s.focusOn (.operands ⟨paren, head, a, done, []⟩))) fun n =>
      Reaches (s.focusOn (.operands ⟨paren, head, a, done ++ [n], []⟩)) := by
  refine hop p hp s _ hopened fun t ht => FormState.step_operand ?_ ?_
  · simpa [Operands.isFull] using hfull
  · refine (hopen t ht).imp_left fun hshort => ?_
    simpa [Operands.isEnough] using hshort

/-- Operands are read until there are `n`, where the form needs them, or where one more may come and
does. -/
theorem operandsTo_leads_of {n : Nat} (hp : p.left < k)
    (hopened : p.opened = (s.focusOn (.operands ⟨paren, head, a, done, []⟩)).opened)
    (hdone : done.length ≤ n) (hmost : ∀ m, a.most = some m → n ≤ m)
    (hopen : n ≤ a.least ∨
      n = done.length + 1 ∧ ∀ t, p.front = .ok t → endsOperands t = false) :
    Leads ((Loop.operandsTo n).read done) p
      (.next (s.focusOn (.operands ⟨paren, head, a, done, []⟩))) fun ns p' c' =>
        Reaches (s.focusOn (.operands ⟨paren, head, a, ns, []⟩)) p' c' ∧ ns.length = n := by
  -- where the form may end already, only the first round reads an operand
  refine leads_loop (I := fun ns p' c' =>
    Reaches (s.focusOn (.operands ⟨paren, head, a, ns, []⟩)) p' c' ∧ ns.length ≤ n ∧
      (n ≤ a.least ∨ n ≤ ns.length ∨
        n = ns.length + 1 ∧ ∀ t, p'.front = .ok t → endsOperands t = false))
    ?_ done p _ hp ⟨⟨rfl, hopened⟩, hdone, hopen.imp_right .inr⟩
  rintro ns p _ hp ⟨⟨rfl, hopened⟩, hns, hopen⟩
  rw [Loop.round]
  split
  · rename_i hlt
    have hfull : a.most ≠ some ns.length := fun h => (hmost _ h).not_gt hlt
    refine (operand_leads_of hop hp hopened hfull fun t ht => ?_).bind fun m p₁ c _ h => .pure ⟨h, ?_⟩
    · rcases hopen with hleast | hle | ⟨-, hends⟩
      · exact .inl (hlt.trans_le hleast)
      · exact absurd hlt hle.not_gt
      · exact .inr (hends t ht)
    · rw [List.length_append, List.length_singleton]
      exact ⟨hlt, hopen.imp_right fun h => .inl (h.elim (fun h => by omega) fun h => h.1.le)⟩
  · rename_i hge
    exact .pure ⟨⟨rfl, hopened⟩, hns.antisymm (not_lt.mp hge)⟩

/-- Operands are read to the end of a form that has no largest number of them. -/
theorem operands_leads_of (hp : p.left < k)
    (hopened : p.opened = (s.focusOn (.operands ⟨paren, head, a, done, []⟩)).opened)
    (hmost : a.most = none) (hleast : a.least ≤ done.length) :
    Leads (Loop.operands.read done) p (.next (s.focusOn (.operands ⟨paren, head, a, done, []⟩)))
      fun ns p' c' => (Reaches (s.focusOn (.operands ⟨paren, head, a, ns, []⟩)) p' c' ∧
        a.least ≤ ns.length) ∧ ∃ t, p'.Faces t ∧ endsOperands t = true := by
  refine leads_loop (I := fun ns p' c' =>
    Reaches (s.focusOn (.operands ⟨paren, head, a, ns, []⟩)) p' c' ∧ a.least ≤ ns.length)
    ?_ done p _ hp ⟨⟨rfl, hopened⟩, hleast⟩
  rintro done p _ hp ⟨⟨rfl, hopened⟩, hleast⟩
  rw [Loop.round]
  refine (leads_look hopened).bind ?_
  rintro t p₁ _ hrun ⟨ht, rfl, hopened₁⟩
  split
  · rename_i hends
    exact .pure ⟨⟨⟨rfl, hopened₁⟩, hleast⟩, t, ht, hends⟩
  · rename_i hends
    have hleft : p₁.left = p.left := ((ends_look p).of_run hrun).2
    refine (operand_leads_of hop (hleft ▸ hp) hopened₁ (by simp [hmost]) fun u hu => .inr ?_).bind
      fun n p₂ c _ h => .pure ⟨h, ?_⟩
    · rw [ht.eq_of_front hu]
      exact Bool.eq_false_iff.mpr hends
    · rw [List.length_append]
      exact hleast.trans (Nat.le_add_right _ _)

/-- A form with a fixed number of operands. -/
private theorem exact_leads_of {n : Nat} (hp : p.left < k) (hkind : head.kind ≠ .minus)
    (hdone : done.length ≤ n)
    (hopened : p.opened = (s.focusOn (.operands ⟨paren, head, .exactly n, done, []⟩)).opened) :
    Leads (do let args ← (Loop.operandsTo n).read done; pure (.mk head args)) p
      (.next (s.focusOn (.operands ⟨paren, head, .exactly n, done, []⟩))) (AwaitsClose s paren) := by
  refine (operandsTo_leads_of hop hp hopened hdone ?_ (.inl le_rfl)).bind ?_
  · rintro m ⟨⟩
    exact le_rfl
  · rintro ns p₁ c - ⟨hreach, hlength⟩
    exact .pure (awaitsClose_of_reaches hreach (.inl (by rw [hlength]; rfl)) (if_neg hkind))

/-- The parts of a form are read as a run reads them, up to its parenthesis. -/
theorem parts_leads_of (hp : p.left < k) (hopened : p.opened = (s.focusOn (.head paren)).opened) :
    Leads (Part.parts head).read p ((s.focusOn (.head paren)).openHead paren head)
      (AwaitsClose s paren) := by
  refine .part ?_
  rw [Part.body, FormState.openHead]
  -- the parts are chosen by the head, for the procedure as for the run
  cases hkind : head.kind with
  | assignment =>
    have hstep : ∀ t, (s.focusOn (.target paren head)).step t =
        if t.kind = .identifier then
          .next (s.focusOn (.operands ⟨paren, head, .exactly 2, [.leaf t], []⟩))
        else .fault (.badTarget t) t.position true := fun _ => rfl
    refine leads_take_ite hopened hstep fun t p₁ hrun _ hopened₁ => ?_
    have hleft : p₁.left ≤ p.left := ((ends_take p).of_run hrun).2.1
    exact exact_leads_of hop (hleft.trans_lt hp) (by simp [hkind]) (by simp) hopened₁
  | binaryOperator => exact exact_leads_of hop hp (by simp [hkind]) (by simp) hopened
  | unaryOperator => exact exact_leads_of hop hp (by simp [hkind]) (by simp) hopened
  | minus =>
    refine (operands_leads_of hop hp hopened rfl le_rfl).bind ?_
    rintro ns p₁ c - ⟨⟨hreach, henough⟩, t, ht, hends⟩
    exact minus_leads hkind hreach henough ht hends
  | statement =>
    have hne : head.kind ≠ .minus := by simp [hkind]
    rcases hs : Statement.ofKeyword? head.text with _ | _ | _ | _ | _
    · exact leads_fail
    · refine (bindings_leads hopened).bind ?_
      rintro ns p₁ c - ⟨hreach, t, ht, hends⟩
      exact declaration_leads hreach ht hends
    · refine .bind (operandsTo_leads_of hop hp hopened (by simp) (by simp) (.inl le_rfl)) ?_
      rintro ns p₁ _ hrun ⟨⟨rfl, hopened₁⟩, hlength⟩
      have hleft := ((loop_ends (.operandsTo 2) [] p).of_run hrun).left_le
      refine (operands_leads_of hop (hleft.trans_lt hp) hopened₁ rfl hlength.ge).bind ?_
      rintro ms p₂ c - ⟨⟨hreach, henough⟩, hends⟩
      exact .pure (awaitsClose_of_reaches hreach (.inr ⟨henough, hends⟩) (if_neg hne))
    · refine .bind (operandsTo_leads_of hop hp hopened (by simp) (by simp) (.inl le_rfl)) ?_
      rintro ns p₁ _ hrun ⟨⟨rfl, hopened₁⟩, hlength⟩
      have hleft := ((loop_ends (.operandsTo 2) [] p).of_run hrun).left_le
      refine (leads_look hopened₁).bind ?_
      rintro t p₂ _ hrun₂ ⟨ht, rfl, hopened₂⟩
      have hleft₂ := ((ends_look p₁).of_run hrun₂).2
      split
      · rename_i hends
        exact .pure (awaitsClose_of_reaches ⟨rfl, hopened₂⟩ (.inr ⟨hlength.ge, t, ht, hends⟩)
          (if_neg hne))
      · rename_i hends
        have hmore : ∀ u, p₂.front = .ok u → endsOperands u = false := fun u hu => by
          rw [ht.eq_of_front hu]
          exact Bool.eq_false_iff.mpr hends
        refine (operandsTo_leads_of hop (by omega) hopened₂ (by omega) (by simp)
          (.inr ⟨by omega, hmore⟩)).bind ?_
        rintro ms p₃ c - ⟨hreach, hlength₃⟩
        exact .pure (awaitsClose_of_reaches hreach (.inl (by rw [hlength₃])) (if_neg hne))
    · exact exact_leads_of hop hp hne (by simp) hopened
  | endOfInput => exact leads_mismatched hopened
  | closeParen => exact leads_fail
  | _ => exact leads_fail

/-- A form is read as a run reads it, from its parenthesis to the one that closes it. -/
theorem form_leads_of {t : Token} {s' : FormState} (hp : p.left ≤ k) (ht : p.front = .ok t)
    (hkind : t.kind = .openParen) (hstep : s'.step t = .next (s.focusOn (.head t)))
    (hopened : p.opened = s'.opened)
    (hs : s'.opened = s.around.map (·.paren.position) ++ s.stale) :
    Leads Part.form.read p (.next s') fun n => Reaches (s.complete n) := by
  refine .part ((leads_take_of ht hopened (by rw [hstep]; rfl)).bind ?_)
  rintro opening p₁ _ hrun ⟨rfl, hopened₁, rfl⟩
  have hleft := ((ends_take p).of_run hrun).2.2 (by simp [hkind])
  rw [if_pos hkind, hstep]
  refine leads_push.bind ?_
  rintro _ p₂ _ hrun₂ ⟨hopened₂, rfl⟩
  have hleft₂ := (ends_push p₁ _).of_run hrun₂
  have hhead : p₂.opened = (s.focusOn (.head opening)).opened := by
    rw [hopened₂, hopened₁, hs, FormState.opened_focusOn]
    rfl
  refine (leads_take hhead fun u _ => takes_openHead _ _ u).bind ?_
  rintro head p₃ _ hrun₃ ⟨-, hopened₃, rfl⟩
  have hleft₃ := ((ends_take p₂).of_run hrun₃).2.1
  refine (parts_leads_of hop (by omega) hopened₃).bind ?_
  rintro n p₄ _ - ⟨f, ⟨rfl, hopened₄⟩, hf, hclose⟩
  have hpop : (s.complete n).opened = (s.focusOn f).opened.tail := by
    rw [FormState.opened_complete, FormState.opened_focusOn, hf]
    rfl
  refine (close_leads hopened₄ (fun u hu => ?_) hpop).bind ?_
  · rw [hclose u hu, FormState.closeWith, FormState.complete_focusOn]
  · intro _ p₅ c _ h
    exact .pure h

end Operands

/-- An operand is read as a run reads it, by induction on the tokens that are left. -/
theorem operand_leads (p : Parser) : OperandLeads p := by
  induction hleft : p.left using Nat.strongRecOn generalizing p with
  | ind k ih =>
    have hop : ∀ q : Parser, q.left < k → OperandLeads q := fun q hq => ih q.left hq q rfl
    intro s o hopened hstep
    refine .part ((leads_look hopened).bind ?_)
    rintro t p₁ _ hrun ⟨ht, rfl, hopened₁⟩
    have hk : p₁.left = k := ((ends_look p).of_run hrun).2.trans hleft
    have hfront : p.front = .ok t := by
      rw [run_look] at hrun
      exact (Prod.mk.inj (Option.some.inj hrun)).1
    have hstep := hstep t hfront
    rw [FormState.openOperand] at hstep
    by_cases hparen : t.kind = .openParen
    · rw [if_pos hparen]
      have hnext : (s.focusOn (.operands o)).step t =
          .next (({ s with around := o :: s.around } : FormState).focusOn (.head t)) := by
        rw [hstep, hparen]
        rfl
      exact form_leads_of hop hk.le ht.2 hparen hnext hopened₁ (s.opened_focusOn _)
    rw [if_neg hparen]
    split
    · rename_i hoperand
      rw [if_pos hoperand] at hstep
      refine (leads_take_of ht.2 hopened₁ (by rw [hstep]; rfl)).bind ?_
      rintro _ p₂ _ - ⟨-, hopened₂, rfl⟩
      rw [hstep]
      exact .pure ⟨rfl, hopened₂⟩
    rename_i hoperand
    rw [if_neg hoperand] at hstep
    cases hkind : t.kind with
    | openParen => exact absurd hkind hparen
    | minus =>
      rw [hkind] at hstep
      refine (leads_take_of ht.2 hopened₁ (by rw [hstep]; rfl)).bind ?_
      rintro _ p₂ _ hrun₂ ⟨-, hopened₂, rfl⟩
      have hlt := (ends_take_of ht.2 (by simp [hkind])).of_run hrun₂
      rw [hstep]
      -- behind a minus sign an operand has to come, whatever the number of operands is
      refine (hop p₂ (by omega) s { o with signs := t :: o.signs } hopened₂ fun u _ =>
        FormState.step_operand rfl (.inl rfl)).bind ?_
      intro n p₃ c _ h
      rw [Operands.add_leaf_sign] at h
      exact .pure h
    | endOfInput =>
      rw [hkind] at hstep
      refine Leads.of_faces ?_ ht hopened₁ (.inr hkind)
      rw [hstep]
      exact leads_mismatched hopened₁
    | closeParen =>
      rw [hkind] at hstep
      exact leads_stay_fail ht hopened₁ hstep
    | _ =>
      rw [hkind] at hstep
      exact leads_take_fail ht.2 hopened₁ hstep

/-! ### Whole texts -/

/-- The forms of a text are read as a run reads them, up to the end of the text. -/
theorem forms_leads {p : Parser} {q : List Position} (hopened : p.opened = q) :
    Leads (Loop.forms.read []) p (.next { stale := q }) fun ns p' c' =>
      Reaches { forms := ns, stale := q } p' c' ∧ ∃ t, p'.Faces t ∧ t.kind = .endOfInput := by
  refine leads_loop (I := fun ns => Reaches { forms := ns, stale := q }) ?_ [] p _
    (Nat.lt_succ_self _) ⟨rfl, hopened⟩
  rintro done p _ - ⟨rfl, hopened⟩
  rw [Loop.round]
  refine (leads_look hopened).bind ?_
  rintro t p₁ _ - ⟨ht, rfl, hopened₁⟩
  split
  · rename_i hkind
    exact .pure ⟨⟨rfl, hopened₁⟩, t, ht, hkind⟩
  split
  · rename_i hkind
    have hstep : FormState.step { forms := done, stale := q } t =
        FormState.mismatch { forms := done, stale := q } t false := by
      simp only [FormState.step, hkind]
    refine Leads.of_faces ?_ ht hopened₁ (.inl (by rw [hstep, takes_mismatch]))
    rw [hstep]
    exact leads_mismatched hopened₁
  split
  · rename_i hkind
    have hstep : FormState.step { forms := done, stale := q } t =
        .next (FormState.focusOn { forms := done, stale := q } (.head t)) := by
      simp only [FormState.step, hkind, FormState.focusOn]
    exact (form_leads_of (fun p _ => operand_leads p) le_rfl ht.2 hkind hstep hopened₁ rfl).bind
      fun n p₂ c _ h => .pure h
  · rename_i hend hclose hopen
    refine leads_take_fail ht.2 hopened₁ ?_
    simp only [FormState.step]

/-- The procedures do what the parser does. -/
theorem run_forms {p : Parser} (hp : p.Sound) : (Loop.forms.read []).run p = some p.parse := by
  obtain ⟨r, p', hrun, -⟩ := loop_ends .forms [] p
  have hlead := (forms_leads rfl p hp p.openSince_self).2 r p' hrun
  rw [hrun]
  cases r with
  | error e => exact congrArg some hlead.symm
  | ok program =>
    obtain ⟨-, c, hresume, -, ⟨rfl, hopened⟩, t, ht, hkind⟩ := hlead
    have hstep : FormState.step { forms := program, stale := p.opened } t = .done program :=
      FormState.step_eq_done_iff.mpr ⟨hkind, rfl, rfl⟩
    have hdone : p'.resume (.next { forms := program, stale := p.opened }) = (.ok program, p') := by
      rw [Parser.resume, Parser.run_of_front hopened ht.2, hstep]
      exact Prod.ext rfl ht.1
    exact congrArg some (hresume.trans hdone).symm

/-- Where a token is asked for, the stack has the parentheses that are open since the start. -/
theorem openSince_of_asks {p q : Parser} (hp : p.Sound) (hq : Asks (Loop.forms.read []) p q) :
    q.OpenSince p q.opened :=
  (forms_leads rfl p hp p.openSince_self).1 q hq

end Descent

end PrefixForth
