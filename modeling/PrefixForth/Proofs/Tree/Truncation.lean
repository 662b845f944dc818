import PrefixForth.Proofs.Layout
import PrefixForth.Proofs.Tree.Parentheses

/-!
# Programs that break off

The tokens of a program are cut off inside a form, and the rest is lost. Then the end of the text is met
where a form is open, and one expects to hear of the missing parenthesis. Mostly one does. But the end
is a token like any other, and in five places the innermost form is asked for something else before it
is asked for its parenthesis: `StopsShort` lists these places by the tokens before them, together with
the reason of the fault that is met there.

What an open form says to the end of the text is decided by its focus (`Focus.endReason`), and the focus
is known from the tokens (`FormState.Holds`). One more thing has to be ruled out: a minus sign with too
many operands, which the end of the text is the first to notice. Such a form stays open for good
(`FormState.resumes_of_step`), so it does not occur before the rest of a program.

Main statement: `truncation_is_mismatch_iff`.
-/

namespace PrefixForth

open Grammar

/-! ### Where tokens stop short -/

/-- The token opens a form or a declaration. -/
def Token.opens (t : Token) : Bool :=
  t.kind = .openParen

/-- The token closes a form or a declaration. -/
def Token.closes (t : Token) : Bool :=
  t.kind = .closeParen

/-- The start of a form after which the parser does not ask for a parenthesis: it asks for the name that
is assigned, for the number of operands of a minus sign or of declarations, or for the name or the type
of a declaration. With it goes the reason of the fault if nothing follows. -/
inductive Unasked : List Token → Reason → Prop
  | target {paren head : Token} (opens : paren.kind = .openParen) (kind : head.kind = .assignment) :
      Unasked [paren, head] .badForm
  | minus {paren head : Token} (opens : paren.kind = .openParen) (kind : head.kind = .minus) :
      Unasked [paren, head] .operandCount
  | bindings {paren head : Token} (opens : paren.kind = .openParen) (kind : head.kind = .statement)
      (text : head.text = Statement.declare.keyword) : Unasked [paren, head] .operandCount
  | bindingName {paren head inner : Token} {bs : List Binding} (opens : paren.kind = .openParen)
      (kind : head.kind = .statement) (text : head.text = Statement.declare.keyword)
      (before : ∀ b ∈ bs, b.Valid) (inner_opens : inner.kind = .openParen) :
      Unasked (paren :: head :: (bs.flatMap Binding.tokens ++ [inner])) .badForm
  | bindingType {paren head inner name : Token} {bs : List Binding} (opens : paren.kind = .openParen)
      (kind : head.kind = .statement) (text : head.text = Statement.declare.keyword)
      (before : ∀ b ∈ bs, b.Valid) (inner_opens : inner.kind = .openParen)
      (name_kind : name.kind = .identifier) :
      Unasked (paren :: head :: (bs.flatMap Binding.tokens ++ [inner, name])) .badForm

/-- The tokens end with the start of a form after which no parenthesis is asked for. -/
def StopsShort (ts : List Token) (r : Reason) : Prop :=
  ∃ us vs, ts = us ++ vs ∧ Unasked vs r

/-! ### The end of the text -/

/-- The reason of the fault at the end of the text, by what the innermost form waits for. -/
def Focus.endReason : Focus → Reason
  | .target _ _ | .bindingName _ _ _ _ | .bindingType _ _ _ _ _ => .badForm
  | .bindings _ _ [] => .operandCount
  | .operands o =>
    if (o.isFull ∨ o.isEnough) ∧ o.close? = none then .operandCount else .mismatchedParenthesis
  | _ => .mismatchedParenthesis

/-- The second form has the head of the first and no fewer operands. -/
def Operands.Continues (o o' : Operands) : Prop :=
  o'.head = o.head ∧ o.done.length ≤ o'.done.length

private theorem Operands.continues_add (o : Operands) (n : Node) : o.Continues (o.add n) :=
  ⟨rfl, by simp [add]⟩

/-- An opening parenthesis leaves one more open, and a closing one leaves one less. -/
theorem Tracks.length_eq {t : Token} {ps ps' : List Position} (h : Tracks t ps ps') :
    ps'.length + (if t.closes then 1 else 0) = ps.length + if t.opens then 1 else 0 := by
  cases h with
  | opens kind => simp [Token.opens, Token.closes, kind]
  | closes kind => simp [Token.opens, Token.closes, kind]
  | other kind =>
    simp only [notParen, ne_eq, Bool.and_eq_true, decide_eq_true_eq] at kind
    simp [Token.opens, Token.closes, kind.1, kind.2]

namespace FormState

variable {s s' : FormState} {t : Token} {ts us : List Token} {o : Operands}

private theorem exists_mismatch (s : FormState) (t : Token) (taken : Bool) :
    ∃ e q taken', s.mismatch t taken = .fault e q taken' ∧ e.reason = .mismatchedParenthesis := by
  rw [mismatch]
  split
  · exact ⟨_, _, _, rfl, rfl⟩
  · exact ⟨_, _, _, rfl, rfl⟩

/-- The end of the text is a fault in every open form. -/
theorem exists_fault_atEnd (h : s.focus ≠ .top) (q : Position) :
    ∃ e q' taken, s.step (.atEnd q) = .fault e q' taken ∧ e.reason = s.focus.endReason := by
  have hkind : (Token.atEnd q).kind = .endOfInput := rfl
  have hmismatch := s.exists_mismatch (.atEnd q) true
  cases hfocus : s.focus with
  | top => exact absurd hfocus h
  | head paren =>
    simp only [step, hfocus, openHead, hkind]
    exact hmismatch
  | target | bindingName | bindingType =>
    simp only [step, hfocus, hkind, reduceCtorEq, if_false]
    exact ⟨_, _, _, rfl, rfl⟩
  | operands o =>
    simp only [step, hfocus, hkind, or_true, and_true, Focus.endReason]
    by_cases hend : o.isFull = true ∨ o.isEnough = true
    · rcases hclose : o.close? with _ | n
      · exact ⟨_, _, _, if_pos hend, by simp [hend, ParsingFault.reason]⟩
      · simpa [hend, closeWith, hkind] using hmismatch
    · simpa [hend, openOperand, hkind, TokenKind.isOperand, TokenKind.isLiteral] using hmismatch
  | bindings paren head done =>
    simp only [step, hfocus, hkind]
    cases done with
    | nil => exact ⟨_, _, _, rfl, rfl⟩
    | cons b bs => simpa [closeWith, hkind, Focus.endReason] using hmismatch
  | bindingEnd =>
    simp only [step, hfocus, hkind, reduceCtorEq, if_false]
    exact hmismatch

/-! ### Counting parentheses -/

/-- The open parentheses are counted by the tokens, and nothing is left over from earlier. -/
theorem length_opened_readAll (h : s.readAll ts = some s') :
    s'.opened.length + ts.countP Token.closes = s.opened.length + ts.countP Token.opens ∧
      s'.stale = s.stale := by
  induction ts generalizing s with
  | nil =>
    obtain rfl : s = s' := Option.some.inj h
    exact ⟨rfl, rfl⟩
  | cons t ts ih =>
    rw [readAll] at h
    split at h
    · rename_i s₁ hstep
      obtain ⟨htracks, hstale⟩ := tracks_of_step hstep
      obtain ⟨hlater, hstale'⟩ := ih h
      have hnow := htracks.length_eq
      rw [List.countP_cons, List.countP_cons]
      exact ⟨by omega, hstale'.trans hstale⟩
    · cases h

/-- After more opening than closing parentheses some form is open. -/
theorem focus_ne_top (h : ({} : FormState).readAll ts = some s)
    (hopen : ts.countP Token.closes < ts.countP Token.opens) : s.focus ≠ .top := by
  intro hfocus
  obtain ⟨hcount, hstale⟩ := length_opened_readAll h
  have haround := (holds_nil.readAll h).around_of_top hfocus
  have hnone : s.opened = [] := by simp [opened, hfocus, Focus.opened, haround, hstale]
  have hstart : ({} : FormState).opened = [] := rfl
  rw [hnone, hstart] at hcount
  omega

/-! ### Forms that stay open -/

/-- The open forms that collect operands, the innermost first. -/
def pending (s : FormState) : List Operands :=
  match s.focus with
  | .operands o => o :: s.around
  | _ => s.around

private theorem mem_pending_iff : o ∈ s.pending ↔ s.focus = .operands o ∨ o ∈ s.around := by
  rw [pending]
  split
  · rename_i o' hfocus
    rw [List.mem_cons, hfocus, Focus.operands.injEq, eq_comm]
  · rename_i hfocus
    exact (or_iff_right (hfocus o)).symm

/-- The form is closed with a tree, or it is still open, with no fewer operands. -/
def Resumes (o : Operands) (s : FormState) : Prop :=
  o.close?.isSome = true ∨ ∃ o' ∈ s.pending, o.Continues o'

private theorem resumes_of_mem_around (h : o ∈ s.around) : Resumes o s := by
  exact .inr ⟨o, mem_pending_iff.mpr (.inr h), rfl, Nat.le_refl _⟩

private theorem resumes_focus {o' : Operands} (hfocus : s.focus = .operands o')
    (h : o.Continues o') :
    Resumes o s := by
  exact .inr ⟨o', mem_pending_iff.mpr (.inl hfocus), h⟩

/-- A form that is complete goes to the nearest form around it. -/
theorem resumes_complete (h : o ∈ s.around) (n : Node) : Resumes o (s.complete n) := by
  rw [complete]
  split
  · rename_i haround
    simp [haround] at h
  · rename_i o₁ os haround
    rw [haround] at h
    rcases List.mem_cons.mp h with rfl | h
    · exact resumes_focus rfl (o.continues_add n)
    · exact resumes_of_mem_around h

/-- A list of operands that goes on. -/
theorem continues_of_goesOn {f : Focus} (h : GoesOn t (.operands o) f) :
    ∃ o', f = .operands o' ∧ o.Continues o' := by
  cases h with
  | leaf kind => exact ⟨_, rfl, o.continues_add _⟩
  | sign kind => exact ⟨_, rfl, rfl, Nat.le_refl _⟩

/-- A token closes an open form with a tree or leaves it open, with no fewer operands. -/
theorem resumes_of_step (h : o ∈ s.pending) (hstep : s.step t = .next s') : Resumes o s' := by
  rcases mem_pending_iff.mp h with hfocus | haround
  · cases takes_of_step hstep with
    | next goesOn =>
      rw [hfocus] at goesOn
      obtain ⟨o', rfl, hcontinues⟩ := continues_of_goesOn goesOn
      exact resumes_focus rfl hcontinues
    | nest focus kind =>
      obtain rfl := Focus.operands.inj (hfocus.symm.trans focus)
      exact resumes_of_mem_around List.mem_cons_self
    | close kind tree => exact .inl (by simp [tree o hfocus])
  · cases takes_of_step hstep with
    | next goesOn => exact resumes_of_mem_around haround
    | nest focus kind => exact resumes_of_mem_around (List.mem_cons_of_mem _ haround)
    | close kind tree => exact resumes_complete haround _

/-- A minus sign with three operands or more is not closed, so its form stays open. -/
theorem exists_pending_of_readAll (ho : o ∈ s.pending) (hminus : o.head.kind = .minus)
    (hmany : 2 < o.done.length) (h : s.readAll ts = some s') : s'.pending ≠ [] := by
  induction ts generalizing s o with
  | nil =>
    obtain rfl : s = s' := Option.some.inj h
    exact List.ne_nil_of_mem ho
  | cons t ts ih =>
    rw [readAll] at h
    split at h
    · rename_i s₁ hstep
      have hnone : o.close? = none := by
        rw [Operands.close?, if_pos hminus]
        split
        · rename_i hdone
          simp [hdone] at hmany
        · rename_i hdone
          simp [hdone] at hmany
        · rfl
      rcases resumes_of_step ho hstep with hclosed | ⟨o', ho', hhead, hlength⟩
      · simp [hnone] at hclosed
      · exact ih ho' (hhead ▸ hminus) (Nat.lt_of_lt_of_le hmany hlength) h
    · cases h

/-! ### The place where tokens stop -/

/-- A form that could be closed but has no tree is that of a minus sign alone, if it has not too many
operands. -/
theorem unasked_of_close? (h : o.Holds ts) (hend : o.isFull = true ∨ o.isEnough = true)
    (hnone : o.close? = none) (hfew : o.head.kind = .minus → o.done.length ≤ 2) :
    Unasked ts .operandCount := by
  have hminus : o.head.kind = .minus := by
    by_contra hk
    simp [Operands.close?, hk] at hnone
  -- one or two operands would make a tree, and more of them are excluded
  have hdone : o.done = [] := by
    rw [Operands.close?, if_pos hminus] at hnone
    have hlength := hfew hminus
    rcases hd : o.done with _ | ⟨a, _ | ⟨b, _ | ⟨c, ds⟩⟩⟩
    · rfl
    · simp [hd] at hnone
    · simp [hd] at hnone
    · simp [hd] at hlength
  have hsigns : o.signs = [] := by
    rcases hend with h | h
    · exact List.isEmpty_iff.mp (Bool.and_eq_true_iff.mp h).1
    · exact List.isEmpty_iff.mp (Bool.and_eq_true_iff.mp h).1
  obtain ⟨first, trees, operands, hopens, -, htrees, hts⟩ := h.parts
  cases hopens with
  | assignment head => simp [hminus] at head
  | operation arity =>
    have hoperands : operands = [] := by
      have hlength := congrArg List.length htrees
      rw [hdone, List.nil_append, Operand.length_treeAll] at hlength
      exact List.eq_nil_of_length_eq_zero hlength.symm
    obtain rfl : ts = [o.paren, o.head] := by
      simpa [hoperands, hsigns, Operand.tokensAll] using hts
    exact .minus h.paren hminus

/-- Where the end of the text is not taken for a missing parenthesis, the tokens stop short. -/
theorem stopsShort_of_endReason (h : s.Holds ts) (hreason : s.focus.endReason ≠ .mismatchedParenthesis)
    (hfew : ∀ o ∈ s.pending, o.head.kind = .minus → o.done.length ≤ 2) :
    StopsShort ts s.focus.endReason := by
  obtain ⟨⟨d, us, vs, -, -, -, hvs, rfl⟩, -⟩ := h
  refine ⟨d.tokens ++ us, vs, rfl, ?_⟩
  -- the tokens of the innermost form tell what it waits for
  cases hfocus : s.focus with
  | top | head | bindingEnd =>
    rw [hfocus] at hreason
    exact absurd rfl hreason
  | target paren head =>
    rw [hfocus] at hvs
    obtain ⟨hparen, hhead, rfl⟩ := hvs
    exact .target hparen hhead
  | operands o =>
    rw [hfocus] at hvs hreason
    simp only [Focus.endReason] at hreason ⊢
    split at hreason
    · rename_i hend
      rw [if_pos hend]
      exact unasked_of_close? hvs hend.1 hend.2 (hfew o (by simp [pending, hfocus]))
    · exact absurd rfl hreason
  | bindings paren head done =>
    rw [hfocus] at hvs hreason
    obtain ⟨hparen, hhead, htext, bs, hbs, rfl, rfl⟩ := hvs
    cases bs with
    | nil => exact .bindings hparen hhead htext
    | cons b bs => exact absurd rfl hreason
  | bindingName paren head done inner =>
    rw [hfocus] at hvs
    obtain ⟨hinner, ws, ⟨hparen, hhead, htext, bs, hbs, rfl, rfl⟩, rfl⟩ := hvs
    exact .bindingName hparen hhead htext hbs hinner
  | bindingType paren head done inner name =>
    rw [hfocus] at hvs
    obtain ⟨hinner, hname, ws, ⟨hparen, hhead, htext, bs, hbs, rfl, rfl⟩, rfl⟩ := hvs
    exact .bindingType hparen hhead htext hbs hinner hname

/-- Tokens that are all taken are taken one part after the other. -/
theorem exists_of_readAll_append (h : s.readAll (ts ++ us) = some s') :
    ∃ s₁, s.readAll ts = some s₁ ∧ s₁.readAll us = some s' := by
  induction ts generalizing s with
  | nil => exact ⟨s, rfl, h⟩
  | cons t ts ih =>
    rw [List.cons_append, readAll] at h
    split at h
    · rename_i s₁ hstep
      rw [readAll_cons_of_next hstep]
      exact ih h
    · cases h

private theorem exists_of_readAll_cons (h : s.readAll (t :: ts) = some s') :
    ∃ s₁, s.step t = .next s₁ ∧ s₁.readAll ts = some s' := by
  rw [readAll] at h
  split at h
  · rename_i s₁ hstep
    exact ⟨s₁, hstep, h⟩
  · cases h

/-- An opening parenthesis is followed by a head, or by the name of a declaration. -/
theorem focus_of_openParen (h : s.step t = .next s') (hk : t.kind = .openParen) :
    (∃ s₁ : FormState, s' = s₁.focusOn (.head t)) ∨
      ∃ paren head done, s'.focus = .bindingName paren head done t := by
  cases hfocus : s.focus with
  | top =>
    simp only [step, hfocus, hk] at h
    cases h
    exact .inl ⟨s, rfl⟩
  | head paren => simp [step, hfocus, openHead, hk] at h
  | target | bindingType => simp [step, hfocus, hk] at h
  | bindingName => simp [step, hfocus, hk] at h
  | bindingEnd => simp [step, hfocus, hk, mismatch_ne_next] at h
  | bindings paren head done =>
    simp only [step, hfocus, hk] at h
    cases h
    exact .inr ⟨paren, head, done, rfl⟩
  | operands o =>
    simp only [step, hfocus] at h
    split at h
    · split at h
      · simp [closeWith, hk, mismatch_ne_next] at h
      · cases h
    · simp only [openOperand, hk] at h
      cases h
      exact .inl ⟨{ s with around := o :: s.around }, rfl⟩

/-- After a parenthesis, what is no name is the head of a form. -/
theorem exists_head_of_readAll {paren head : Token} (hparen : paren.kind = .openParen)
    (hhead : head.kind ≠ .identifier) (h : s.readAll (paren :: head :: ts) = some s') :
    ∃ s₁ s₂ : FormState, (s₁.focusOn (.head paren)).step head = .next s₂ ∧
      s₂.readAll ts = some s' := by
  obtain ⟨s₀, hopen, hrest⟩ := exists_of_readAll_cons h
  obtain ⟨s₂, hstep, hlater⟩ := exists_of_readAll_cons hrest
  rcases focus_of_openParen hopen hparen with ⟨s₁, rfl⟩ | ⟨paren', head', done, hfocus⟩
  · exact ⟨s₁, s₂, hstep, hlater⟩
  · simp [step, hfocus, hhead] at hstep

/-- The head of a `let` is followed by its declarations. -/
theorem exists_bindings_of_readAll {paren head : Token} (hparen : paren.kind = .openParen)
    (hkind : head.kind = .statement) (htext : head.text = Statement.declare.keyword)
    (h : s.readAll (paren :: head :: ts) = some s') :
    ∃ s₁ : FormState, (s₁.focusOn (.bindings paren head [])).readAll ts = some s' := by
  obtain ⟨s₁, s₂, hstep, h⟩ := exists_head_of_readAll hparen (by simp [hkind]) h
  have hdeclare := Statement.ofKeyword?_eq_some_iff.mpr htext
  rcases step_head_eq_next_iff.mp hstep with ⟨hk, -⟩ | ⟨-, -, rfl⟩ | ⟨a, ha, -⟩
  · simp [hkind] at hk
  · exact ⟨s₁, h⟩
  · simp [arityOf?, hkind, hdeclare] at ha

/-- Where tokens stop short, the innermost form says so. -/
theorem endReason_of_unasked {r : Reason} (hts : Unasked ts r) (h : s.readAll ts = some s') :
    s'.focus.endReason = r := by
  -- the converse: what the tokens end with tells what the innermost form waits for
  cases hts with
  | @target paren head opens kind =>
    obtain ⟨s₁, s₂, hstep, h⟩ := exists_head_of_readAll opens (by simp [kind]) h
    obtain rfl : s₂ = s' := Option.some.inj h
    rcases step_head_eq_next_iff.mp hstep with ⟨-, rfl⟩ | ⟨hk, -, -⟩ | ⟨a, ha, -⟩
    · rfl
    · simp [kind] at hk
    · simp [arityOf?, kind] at ha
  | @minus paren head opens kind =>
    obtain ⟨s₁, s₂, hstep, h⟩ := exists_head_of_readAll opens (by simp [kind]) h
    obtain rfl : s₂ = s' := Option.some.inj h
    rcases step_head_eq_next_iff.mp hstep with ⟨hk, -⟩ | ⟨hk, -, -⟩ | ⟨a, ha, rfl⟩
    · simp [kind] at hk
    · simp [kind] at hk
    · obtain rfl : ⟨0, none⟩ = a := by simpa [arityOf?, kind] using ha
      simp [focusOn, Focus.endReason, Operands.isEnough, Operands.close?, kind]
  | bindings opens kind text =>
    obtain ⟨s₁, h⟩ := exists_bindings_of_readAll opens kind text h
    obtain rfl : s₁.focusOn _ = s' := Option.some.inj h
    rfl
  | @bindingName paren head inner bs opens kind text before inner_opens =>
    obtain ⟨s₁, h⟩ := exists_bindings_of_readAll opens kind text h
    rw [Binding.readAll_flatMap before] at h
    obtain ⟨s₂, hstep, h⟩ := exists_of_readAll_cons h
    obtain rfl : s₂ = s' := Option.some.inj h
    simp only [step, focusOn, inner_opens] at hstep
    cases hstep
    rfl
  | @bindingType paren head inner name bs opens kind text before inner_opens name_kind =>
    obtain ⟨s₁, h⟩ := exists_bindings_of_readAll opens kind text h
    rw [Binding.readAll_flatMap before] at h
    obtain ⟨s₂, hstep, h⟩ := exists_of_readAll_cons h
    simp only [step, focusOn, inner_opens] at hstep
    cases hstep
    obtain ⟨s₃, hstep, h⟩ := exists_of_readAll_cons h
    obtain rfl : s₃ = s' := Option.some.inj h
    simp only [step, name_kind, if_true] at hstep
    cases hstep
    rfl

end FormState

/-! ### Texts that break off -/

/-- The start of a program, cut off inside a form: the fault that its end leads to. -/
theorem exists_outcome_of_cut {src : Bytes} {p : Program} {ts rest : List Token}
    (hp : parse src = .ok p) (hcut : (tokenize src).1 = ts ++ rest)
    (hopen : ts.countP Token.closes < ts.countP Token.opens) (q : Position) :
    ∃ e q', ({} : FormState).outcome q ts none = .error (.parsing e q') ∧
      (e.reason = .mismatchedParenthesis ↔ ∀ r, ¬StopsShort ts r) ∧
      ∀ r, StopsShort ts r → e.reason = r := by
  obtain ⟨us, hus, s', hread, htop, -⟩ := parse_eq_ok_iff_readAll.mp hp
  rw [hus] at hcut
  obtain rfl : us = ts ++ rest := hcut
  obtain ⟨s, hts, hrest⟩ := FormState.exists_of_readAll_append hread
  have hholds := FormState.holds_nil.readAll hts
  -- the whole program is read to its end, where nothing is open
  have hnone : s'.pending = [] := by
    have haround := (FormState.holds_nil.readAll hread).around_of_top htop
    simp [FormState.pending, htop, haround]
  have hfew : ∀ o ∈ s.pending, o.head.kind = .minus → o.done.length ≤ 2 := by
    intro o ho hminus
    by_contra hmany
    exact FormState.exists_pending_of_readAll ho hminus (Nat.lt_of_not_le hmany) hrest hnone
  obtain ⟨e, q', taken, hstep, hreason⟩ :=
    FormState.exists_fault_atEnd (FormState.focus_ne_top hts hopen) q
  have houtcome : ({} : FormState).outcome q ts none = .error (.parsing e q') := by
    rw [← List.append_nil ts, FormState.outcome_append hts, FormState.outcome, hstep]
  have hshort : ∀ r, StopsShort ts r → e.reason = r := by
    rintro r ⟨vs, ws, rfl, hunasked⟩
    obtain ⟨s₁, -, hws⟩ := FormState.exists_of_readAll_append hts
    rw [hreason, FormState.endReason_of_unasked hunasked hws]
  refine ⟨e, q', houtcome, ⟨fun hmismatch r hr => ?_, fun hnot => ?_⟩, hshort⟩
  · obtain rfl := (hshort r hr).symm.trans hmismatch
    obtain ⟨vs, ws, -, hunasked⟩ := hr
    cases hunasked
  · by_contra hne
    rw [hreason] at hne
    exact hnot _ (FormState.stopsShort_of_endReason hholds (by simpa using hne) hfew)

/-- **A program that breaks off is reported as a missing parenthesis, but for five places.** The tokens
of a program are cut off where more parentheses are open than closed. A text with just these tokens,
wherever they stand in it, is not parsed, and the fault is about parentheses exactly if the tokens do
not stop short; if they do, it has the reason that goes with the place. -/
theorem truncation_is_mismatch_iff {src src' : Bytes} {p : Program} {ts rest ts' : List Token}
    (hp : parse src = .ok p) (hcut : (tokenize src).1 = ts ++ rest)
    (hopen : ts.countP Token.closes < ts.countP Token.opens) (hsrc' : tokenize src' = (ts', none))
    (hlook : ts'.map Token.look = ts.map Token.look) :
    ∃ e q, parse src' = .error (.parsing e q) ∧
      (e.reason = .mismatchedParenthesis ↔ ∀ r, ¬StopsShort ts r) ∧
      ∀ r, StopsShort ts r → e.reason = r := by
  obtain ⟨e, q, houtcome, hiff, hshort⟩ := exists_outcome_of_cut hp hcut hopen .unknown
  -- places apart, the text leads to what the tokens of the program lead to
  have hplaced := placeOutcome_outcome_congr hlook (lastEnding .unknown ts') .unknown
  have hparse : parse src' = ({} : FormState).outcome (lastEnding .unknown ts') ts' none := by
    rw [parse_eq_outcome, hsrc']
  rw [← hparse, houtcome] at hplaced
  rcases hresult : parse src' with f | p'
  · rw [hresult] at hplaced
    have hfault : f.relocate .forget = .parsing (e.relocate .forget) (.forget q) :=
      Except.error.inj hplaced
    cases f with
    | parsing e' q' =>
      have hreason : e'.reason = e.reason := by
        rw [← e'.reason_relocate .forget, ← e.reason_relocate .forget, (Fault.parsing.inj hfault).1]
      exact ⟨e', q', rfl, by rw [hreason]; exact hiff, by rw [hreason]; exact hshort⟩
    | lexical e' => cases hfault
    | semantic e' => cases hfault
  · rw [hresult] at hplaced
    cases hplaced

/-- A program that breaks off between two declarations, in a text of its own. -/
theorem truncation_is_mismatch_iff_declaration : ∃ ts rest e q,
    (tokenize (utf8 "(while (< 1 2) (let (y int) (z real)) (- 1 2))")).1 = ts ++ rest ∧
    ts.countP Token.closes < ts.countP Token.opens ∧
    parse (utf8 "(while(< 1 2)\n(let(y int)") = .error (.parsing e q) ∧
    e.reason = .mismatchedParenthesis ∧ (∀ r, ¬StopsShort ts r) ∧ ts.length = 13 := by
  have hparsed : (parse (utf8 "(while (< 1 2) (let (y int) (z real)) (- 1 2))")).toOption.isSome =
      true := by decide +kernel
  obtain ⟨p, hp⟩ := Option.isSome_iff_exists.mp hparsed
  let ts := (tokenize (utf8 "(while (< 1 2) (let (y int) (z real)) (- 1 2))")).1.take 13
  have hcut : (tokenize (utf8 "(while (< 1 2) (let (y int) (z real)) (- 1 2))")).1 = ts ++ _ :=
    (List.take_append_drop 13 _).symm
  have hopen : ts.countP Token.closes < ts.countP Token.opens := by decide +kernel
  have hend : (tokenize (utf8 "(while(< 1 2)\n(let(y int)")).2 = none := by decide +kernel
  have hlook : (tokenize (utf8 "(while(< 1 2)\n(let(y int)")).1.map Token.look = ts.map Token.look := by
    decide +kernel
  obtain ⟨e, q, hfault, hiff, -⟩ := truncation_is_mismatch_iff (toOption_eq_some_iff.mp hp) hcut hopen
    (Prod.ext rfl hend) hlook
  have hreported : (parse (utf8 "(while(< 1 2)\n(let(y int)")).map (fun _ => ()) =
      .error (.parsing (.notClosed ⟨2, 1⟩ (.atEnd ⟨2, 12⟩)) ⟨2, 12⟩) := by decide +kernel
  rw [hfault] at hreported
  obtain ⟨rfl, -⟩ := Fault.parsing.inj (Except.error.inj hreported)
  exact ⟨ts, _, _, q, hcut, hopen, hfault, rfl, hiff.mp rfl, by decide +kernel⟩

/-- An assignment that breaks off before its target is not reported as a missing parenthesis. -/
theorem truncated_assignment_is_no_mismatch :
    (∃ p, parse (utf8 "(:= x 1)") = .ok p) ∧
    (∃ ts rest, tokenize (utf8 "(:=") = (ts, none) ∧
      (tokenize (utf8 "(:= x 1)")).1 = ts ++ rest ∧ rest ≠ [] ∧
      ts.countP Token.closes < ts.countP Token.opens) ∧
    ∃ e q, parse (utf8 "(:=") = .error (.parsing e q) ∧ e.reason ≠ .mismatchedParenthesis := by
  have hparsed : (parse (utf8 "(:= x 1)")).toOption.isSome = true := by decide +kernel
  have hend : (tokenize (utf8 "(:=")).2 = none := by decide +kernel
  have hcut : (tokenize (utf8 "(:= x 1)")).1 = (tokenize (utf8 "(:=")).1 ++
      (tokenize (utf8 "(:= x 1)")).1.drop 2 := by decide +kernel
  have hmore : (tokenize (utf8 "(:= x 1)")).1.drop 2 ≠ [] := by decide +kernel
  have hopen : (tokenize (utf8 "(:=")).1.countP Token.closes <
      (tokenize (utf8 "(:=")).1.countP Token.opens := by decide +kernel
  have hreported : (parse (utf8 "(:=")).map (fun _ => ()) =
      .error (.parsing (.badTarget (.atEnd ⟨1, 4⟩)) ⟨1, 4⟩) := by decide +kernel
  obtain ⟨p, hp⟩ := Option.isSome_iff_exists.mp hparsed
  refine ⟨⟨p, toOption_eq_some_iff.mp hp⟩, ⟨_, _, Prod.ext rfl hend, hcut, hmore, hopen⟩, ?_⟩
  rcases hresult : parse (utf8 "(:=") with f | p'
  · rw [hresult] at hreported
    obtain rfl := Except.error.inj hreported
    exact ⟨_, _, rfl, by decide⟩
  · rw [hresult] at hreported
    cases hreported

end PrefixForth
