import PrefixForth.Proofs.Tree.Relocation

/-!
# Open parentheses

A parser knows of its open parentheses only through the forms that are open. What they should be is
said by the tokens alone: `LeavesOpen ts ps` says that the tokens `ts` are made of sequences in which
every parenthesis is matched (`Matched`) and of opening ones between these, which stand at the
positions `ps`, the last one first.

A token that is taken adds its position if it is an opening parenthesis, removes the last one if it is
a closing one, and leaves all open parentheses in place otherwise (`FormState.tracks_of_step`). So at
every point of a run the open parentheses are those that the tokens taken so far leave open
(`Parser.Passes.leavesOpen`). A fault about parentheses names the last of them, if there is one
(`FormState.fault_of_mismatch`).
-/

namespace PrefixForth

open Grammar

/-! ### Parentheses in a sequence of tokens -/

/-- Every parenthesis of the tokens is matched by another one of them. -/
inductive Matched : List Token → Prop
  | nil : Matched []
  | other {t : Token} {ts : List Token} (kind : notParen t = true) (rest : Matched ts) :
      Matched (t :: ts)
  | pair {t t' : Token} {ts us : List Token} (opens : t.kind = .openParen) (inside : Matched ts)
      (closes : t'.kind = .closeParen) (rest : Matched us) : Matched (t :: (ts ++ t' :: us))

/-- The opening parentheses at the positions are left unmatched by the tokens, the last one first, and
all others are matched. -/
inductive LeavesOpen : List Token → List Position → Prop
  | none {ts : List Token} (all : Matched ts) : LeavesOpen ts []
  | one {ts us : List Token} {t : Token} {ps : List Position} (before : LeavesOpen ts ps)
      (opens : t.kind = .openParen) (inside : Matched us) :
      LeavesOpen (ts ++ t :: us) (t.position :: ps)

/-- What a token does to the positions of the open parentheses. -/
inductive Tracks (t : Token) : List Position → List Position → Prop
  | opens {ps : List Position} (kind : t.kind = .openParen) : Tracks t ps (t.position :: ps)
  | closes {p : Position} {ps : List Position} (kind : t.kind = .closeParen) : Tracks t (p :: ps) ps
  | other {ps : List Position} (kind : notParen t = true) : Tracks t ps ps

section Tokens

variable {ts us : List Token} {t : Token} {ps ps' : List Position}

/-- Matched tokens may stand side by side. -/
theorem Matched.append (h : Matched ts) (h' : Matched us) : Matched (ts ++ us) := by
  induction h with
  | nil => exact h'
  | other kind _ ih => exact .other kind ih
  | @pair t t' ts vs opens inside closes _ _ ih =>
    have hcut : t :: (ts ++ t' :: vs) ++ us = t :: (ts ++ t' :: (vs ++ us)) := by simp
    rw [hcut]
    exact .pair opens inside closes ih

/-- Matched tokens leave nothing more open. -/
theorem LeavesOpen.append (h : LeavesOpen ts ps) (h' : Matched us) : LeavesOpen (ts ++ us) ps := by
  cases h with
  | none all => exact .none (all.append h')
  | one before opens inside =>
    rw [List.append_assoc, List.cons_append]
    exact .one before opens (inside.append h')

/-- One more token. -/
theorem LeavesOpen.concat (h : LeavesOpen ts ps) (ht : Tracks t ps ps') :
    LeavesOpen (ts ++ [t]) ps' := by
  cases ht with
  | opens kind => exact .one h kind .nil
  | other kind => exact h.append (.other kind .nil)
  | closes kind =>
    cases h with
    | @one ts us t' ps before opens inside =>
      -- the token closes the last one, and all between the two is matched
      rw [List.append_assoc]
      exact before.append (.pair opens inside kind .nil)

/-- The positions of the open parentheses after one more token, computed. -/
def track (ps : List Position) (t : Token) : List Position :=
  match t.kind with
  | .openParen => t.position :: ps
  | .closeParen => ps.tail
  | _ => ps

private theorem Tracks.track_eq (h : Tracks t ps ps') : track ps t = ps' := by
  cases h with
  | opens kind => simp [track, kind]
  | closes kind => simp [track, kind]
  | other kind =>
    simp only [notParen, ne_eq, Bool.and_eq_true, decide_eq_true_eq] at kind
    rw [track]
    split
    · rename_i h
      exact absurd h kind.1
    · rename_i h
      exact absurd h kind.2
    · rfl

/-- Where all parentheses are matched, the open ones after it are those before it. -/
theorem Matched.foldl_track (h : Matched ts) (ps : List Position) : ts.foldl track ps = ps := by
  induction h generalizing ps with
  | nil => rfl
  | other kind _ ih => rw [List.foldl_cons, (Tracks.other kind).track_eq, ih]
  | pair opens _ closes _ ih ih' =>
    rw [List.foldl_cons, (Tracks.opens opens).track_eq, List.foldl_append, ih, List.foldl_cons,
      (Tracks.closes closes).track_eq, ih']

private theorem LeavesOpen.foldl_track (h : LeavesOpen ts ps) : ts.foldl track [] = ps := by
  induction h with
  | none all => exact all.foldl_track []
  | one _ opens inside ih =>
    rw [List.foldl_append, ih, List.foldl_cons, (Tracks.opens opens).track_eq, inside.foldl_track]

/-- Tokens leave parentheses open in one way only. -/
theorem LeavesOpen.unique (h : LeavesOpen ts ps) (h' : LeavesOpen ts ps') : ps' = ps :=
  h'.foldl_track.symm.trans h.foldl_track

/-- What the tokens leave open is determined by them. -/
theorem LeavesOpen.iff_eq (h : LeavesOpen ts ps) (ps' : List Position) :
    LeavesOpen ts ps' ↔ ps' = ps :=
  ⟨h.unique, fun heq => heq ▸ h⟩

end Tokens

/-! ### One token -/

namespace FormState

variable {s s' : FormState} {t : Token}

/-- A complete form is no longer open. -/
theorem opened_complete (s : FormState) (n : Node) :
    (s.complete n).opened = s.around.map (·.paren.position) ++ s.stale := by
  rw [complete]
  split
  · rename_i haround
    simp [opened, Focus.opened, haround]
  · rename_i o os haround
    simp [opened, Focus.opened, Operands.add, haround]

private theorem stale_complete (s : FormState) (n : Node) : (s.complete n).stale = s.stale := by
  rw [complete]
  split <;> rfl

/-- The closing parenthesis of the innermost form. -/
theorem tracks_of_closeWith {n : Node} {p : Position} (hfocus : s.focus.opened = [p])
    (h : s.closeWith n t = .next s') : Tracks t s.opened s'.opened ∧ s'.stale = s.stale := by
  obtain ⟨hkind, rfl⟩ := closeWith_eq_next h
  rw [opened_complete, stale_complete, opened, hfocus]
  exact ⟨.closes hkind, rfl⟩

/-- The head of a form is no parenthesis. -/
theorem notParen_of_head (h : t.kind = .assignment ∨ t.kind = .statement ∨
    ∃ a, arityOf? t = some a) : notParen t = true := by
  have harity : ∀ k, k = .openParen ∨ k = .closeParen → t.kind = k → arityOf? t = none := by
    rintro k (rfl | rfl) hk <;> simp [arityOf?, hk]
  rcases h with hk | hk | ⟨a, ha⟩
  · exact notParen_of_kind hk (by decide) (by decide)
  · exact notParen_of_kind hk (by decide) (by decide)
  · refine notParen_of_kind rfl (fun hk => ?_) fun hk => ?_
    · rw [harity _ (.inl rfl) hk] at ha
      cases ha
    · rw [harity _ (.inr rfl) hk] at ha
      cases ha

private theorem tracks_of_openOperand {o : Operands} (hfocus : s.focus = .operands o)
    (h : s.openOperand o t = .next s') : Tracks t s.opened s'.opened ∧ s'.stale = s.stale := by
  rw [openOperand] at h
  split at h
  · rename_i hk
    cases h
    have hparen : notParen t = true :=
      notParen_of_kind rfl (fun h => by rw [h] at hk; cases hk) fun h => by rw [h] at hk; cases hk
    have hsame : ({ s with focus := .operands (o.add (.leaf t)) } : FormState).opened = s.opened := by
      simp [opened, hfocus, Focus.opened, Operands.add]
    rw [hsame]
    exact ⟨.other hparen, rfl⟩
  · split at h
    · rename_i hk
      cases h
      have hmore : ({ s with focus := .head t, around := o :: s.around } : FormState).opened =
          t.position :: s.opened := by
        simp [opened, hfocus, Focus.opened]
      rw [hmore]
      exact ⟨.opens hk, rfl⟩
    · rename_i hk
      cases h
      have hsame : ({ s with focus := .operands { o with signs := t :: o.signs } } :
          FormState).opened = s.opened := by
        simp [opened, hfocus, Focus.opened]
      rw [hsame]
      exact ⟨.other (notParen_of_kind hk (by decide) (by decide)), rfl⟩
    · exact absurd h mismatch_ne_next
    · cases h
    · cases h

/-- What a token that is taken does to the open parentheses. -/
theorem tracks_of_step (h : s.step t = .next s') :
    Tracks t s.opened s'.opened ∧ s'.stale = s.stale := by
  -- by what the innermost form waits for; most steps leave the stack alone
  obtain ⟨forms, focus, around, stale⟩ := s
  cases focus with
  | top =>
    simp only [step] at h
    split at h
    · rename_i hk
      cases h
      exact ⟨.opens hk, rfl⟩
    · cases h
    · exact absurd h mismatch_ne_next
    · cases h
  | head paren =>
    have hcases := step_head_eq_next_iff (s := ⟨forms, .top, around, stale⟩).mp h
    have hparen : notParen t = true := notParen_of_head <| by
      rcases hcases with ⟨hk, -⟩ | ⟨hk, -, -⟩ | ⟨a, ha, -⟩
      · exact .inl hk
      · exact .inr (.inl hk)
      · exact .inr (.inr ⟨a, ha⟩)
    rcases hcases with ⟨-, rfl⟩ | ⟨-, -, rfl⟩ | ⟨a, -, rfl⟩ <;> exact ⟨.other hparen, rfl⟩
  | target paren head =>
    simp only [step] at h
    split at h
    · rename_i hk
      cases h
      exact ⟨.other (notParen_of_kind hk (by decide) (by decide)), rfl⟩
    · cases h
  | operands o =>
    simp only [step] at h
    split at h
    · split at h
      · exact tracks_of_closeWith rfl h
      · cases h
    · exact tracks_of_openOperand rfl h
  | bindings paren head done =>
    -- the parenthesis behind declarations closes the form if there are any
    have hclose : (if done.isEmpty then .fault .noBindings head.position false
        else closeWith ⟨forms, .bindings paren head done, around, stale⟩ (.mk head done) t) =
          .next s' → Tracks t (opened ⟨forms, .bindings paren head done, around, stale⟩) s'.opened ∧
            s'.stale = stale := by
      intro h
      split at h
      · cases h
      · exact tracks_of_closeWith rfl h
    simp only [step] at h
    split at h
    · rename_i hk
      cases h
      exact ⟨.opens hk, rfl⟩
    · exact hclose h
    · exact hclose h
    · cases h
  | bindingName paren head done inner =>
    simp only [step] at h
    split at h
    · rename_i hk
      cases h
      exact ⟨.other (notParen_of_kind hk (by decide) (by decide)), rfl⟩
    · cases h
  | bindingType paren head done inner name =>
    simp only [step] at h
    split at h
    · rename_i hk
      cases h
      exact ⟨.other (notParen_of_kind hk (by decide) (by decide)), rfl⟩
    · cases h
  | bindingEnd paren head done inner name type =>
    simp only [step] at h
    split at h
    · rename_i hk
      cases h
      exact ⟨.closes hk, rfl⟩
    · exact absurd h mismatch_ne_next

/-! ### Faults about parentheses -/

variable {e : ParsingFault} {q : Position} {taken : Bool}

/-- The fault is about parentheses: it names the last open one, if there is one, and it is located at
the token that was found. -/
def FaultsOn (ps : List Position) (found : Token) (e : ParsingFault) (q : Position) : Prop :=
  q = found.position ∧
    ((ps = [] ∧ e = .notOpened found) ∨ ∃ p ps', ps = p :: ps' ∧ e = .notClosed p found)

private theorem faultsOn_of_mismatch {taken' : Bool} (h : s.mismatch t taken' = .fault e q taken) :
    FaultsOn s.opened t e q := by
  rw [mismatch] at h
  split at h
  · rename_i p ps hopened
    cases h
    exact ⟨rfl, .inr ⟨p, ps, hopened, rfl⟩⟩
  · rename_i hopened
    cases h
    exact ⟨rfl, .inl ⟨hopened, rfl⟩⟩

private theorem faultsOn_of_closeWith {n : Node} (h : s.closeWith n t = .fault e q taken) :
    FaultsOn s.opened t e q := by
  rw [closeWith] at h
  split at h
  · cases h
  · exact faultsOn_of_mismatch h

/-- A token that is refused because of parentheses. -/
theorem fault_of_mismatch (h : s.step t = .fault e q taken)
    (hreason : e.reason = .mismatchedParenthesis) : FaultsOn s.opened t e q := by
  -- all faults but those of `mismatch` have other reasons
  have hother : ∀ {e' : ParsingFault} {q' : Position} {b : Bool},
      FormStep.fault e' q' b = .fault e q taken → e'.reason ≠ .mismatchedParenthesis →
      FaultsOn s.opened t e q := by
    rintro e' q' b ⟨⟩ hne
    exact absurd hreason hne
  cases hfocus : s.focus with
  | top =>
    simp only [step, hfocus] at h
    split at h
    · cases h
    · cases h
    · exact faultsOn_of_mismatch h
    · exact hother h (by rintro ⟨⟩)
  | head paren =>
    simp only [step, hfocus, openHead] at h
    split at h
    case h_5 =>
      split at h
      case h_5 => exact hother h (by rintro ⟨⟩)
      all_goals cases h
    case h_6 => exact faultsOn_of_mismatch h
    case h_7 => exact hother h (by rintro ⟨⟩)
    case h_8 => exact hother h (by rintro ⟨⟩)
    all_goals cases h
  | target | bindingName | bindingType =>
    simp only [step, hfocus] at h
    split at h
    · cases h
    · exact hother h (by rintro ⟨⟩)
  | operands o =>
    simp only [step, hfocus] at h
    split at h
    · split at h
      · exact faultsOn_of_closeWith h
      · exact hother h (by rintro ⟨⟩)
    · rw [openOperand] at h
      split at h
      · cases h
      · split at h
        · cases h
        · cases h
        · exact faultsOn_of_mismatch h
        · exact hother h (by rintro ⟨⟩)
        · exact hother h (by rintro ⟨⟩)
  | bindings paren head done =>
    simp only [step, hfocus] at h
    split at h
    · cases h
    · split at h
      · exact hother h (by rintro ⟨⟩)
      · exact faultsOn_of_closeWith h
    · split at h
      · exact hother h (by rintro ⟨⟩)
      · exact faultsOn_of_closeWith h
    · exact hother h (by rintro ⟨⟩)
  | bindingEnd =>
    simp only [step, hfocus] at h
    split at h
    · cases h
    · exact faultsOn_of_mismatch h

end FormState

/-! ### Whole runs -/

namespace Parser

/-- A run that starts with the lexer `l` and the open forms `s` has taken the tokens and come to
another lexer and other open forms. -/
inductive Passes (l : Lexer) (s : FormState) : List Token → Lexer → FormState → Prop
  | start : Passes l s [] l s
  | token {ts : List Token} {l₁ l₂ : Lexer} {s₁ s₂ : FormState} {t : Token}
      (before : Passes l s ts l₁ s₁) (seen : l₁.peek = (.token t, l₂)) (taken : s₁.step t = .next s₂) :
      Passes l s (ts ++ [t]) l₂.next.2 s₂

variable {l l' : Lexer} {s s' : FormState} {ts : List Token}

private theorem run_of_next {l₁ : Lexer} {t : Token} (hseen : l.peek = (.token t, l₁))
    (htaken : s.step t = .next s') : run l s = run l₁.next.2 s' := by
  rw [run]
  split
  · rename_i hpeek
    rw [hseen] at hpeek
    cases hpeek
    rw [htaken]
  all_goals
    rename_i hpeek
    rw [hseen] at hpeek
    cases hpeek

namespace Passes

/-- A run goes on in the same way from every point of it. -/
theorem run_eq (h : Passes l s ts l' s') : run l s = run l' s' := by
  induction h with
  | start => rfl
  | token _ seen taken ih => rw [ih, run_of_next seen taken]

/-- A run that takes one more token at its start. -/
theorem cons {l₁ : Lexer} {s₁ : FormState} {t : Token} (hseen : l.peek = (.token t, l₁))
    (htaken : s.step t = .next s₁) (h : Passes l₁.next.2 s₁ ts l' s') :
    Passes l s (t :: ts) l' s' := by
  induction h with
  | start => exact .token .start hseen htaken
  | token _ seen taken ih => exact .token ih seen taken

/-- What has been taken and what is still to come are the tokens of the text. -/
theorem tokens_eq (h : Passes l s ts l' s') (hl : l.lookahead = none) :
    l'.lookahead = none ∧ l.cursor.tokens = (ts ++ l'.cursor.tokens.1, l'.cursor.tokens.2) ∧
      l'.ending = lastEnding l.ending ts := by
  induction h with
  | start => exact ⟨hl, rfl, rfl⟩
  | token _ seen _ ih =>
    obtain ⟨hlook, htokens, hending⟩ := ih
    obtain ⟨c, hscan, hcursor, hlook'⟩ := Lexer.scan_of_peek_token hlook seen
    refine ⟨hlook', ?_, ?_⟩
    · rw [htokens, hcursor, Cursor.tokens_of_token hscan, List.append_assoc]
      rfl
    · rw [Lexer.ending_of_peek_token hlook seen, lastEnding, List.foldl_append]
      rfl

/-- At every point, the tokens taken so far leave the parentheses open that the forms have opened. -/
theorem leavesOpen (h : Passes l s ts l' s') (hs : s.opened = []) : LeavesOpen ts s'.opened := by
  induction h with
  | start => exact hs ▸ .none .nil
  | token _ _ taken ih => exact ih.concat (FormState.tracks_of_step taken).1

private theorem stale_eq (h : Passes l s ts l' s') : s'.stale = s.stale := by
  induction h with
  | start => rfl
  | token _ _ taken ih => rw [(FormState.tracks_of_step taken).2, ih]

/-- At every point, the open forms hold the tokens that were taken. -/
theorem holds (h : Passes l s ts l' s') (hs : s.Holds []) : s'.Holds ts := by
  induction h with
  | start => exact hs
  | token _ _ taken ih => exact ih.step taken

/-- Where no form is open, all parentheses are closed. -/
theorem opened_eq_nil (h : Passes l {} ts l' s') (hfocus : s'.focus = .top) : s'.opened = [] := by
  have haround := (h.holds FormState.holds_nil).around_of_top hfocus
  simp [FormState.opened, Focus.opened, hfocus, haround, h.stale_eq]

end Passes

/-- How a run ends at a point of it, with what it leads to. -/
inductive Ends (l : Lexer) (s : FormState) : Except Fault Program × Parser → Prop
  | done {l' : Lexer} {p : Program} (seen : l.peek = (.ended, l'))
      (step : s.step (.atEnd l'.ending) = .done p) : Ends l s (.ok p, ⟨l', s.opened⟩)
  | refused {l' : Lexer} {t : Token} {e : ParsingFault} {q : Position} {taken : Bool}
      (seen : l.peek = (.token t, l')) (step : s.step t = .fault e q taken) :
      Ends l s (.error (.parsing e q), ⟨if taken then l'.next.2 else l', s.opened⟩)
  | unfinished {l' : Lexer} {e : ParsingFault} {q : Position} {taken : Bool}
      (seen : l.peek = (.ended, l')) (step : s.step (.atEnd l'.ending) = .fault e q taken) :
      Ends l s (.error (.parsing e q), ⟨l', s.opened⟩)
  | failed {l' : Lexer} {e : LexicalError} (seen : l.peek = (.failed e, l')) :
      Ends l s (.error (.lexical e), ⟨l', s.opened⟩)

/-- Every run takes some tokens and ends. -/
theorem exists_ends (hl : l.lookahead = none) :
    ∃ ts l' s', Passes l s ts l' s' ∧ Ends l' s' (run l s) := by
  fun_induction run l s with
  | case1 l s t l₁ seen s₁ taken ih =>
    obtain ⟨-, -, -, hlook⟩ := Lexer.scan_of_peek_token hl seen
    obtain ⟨ts, l', s', hpasses, hends⟩ := ih hlook
    exact ⟨t :: ts, l', s', hpasses.cons seen taken, hends⟩
  | case2 l s t l₁ seen p done =>
    -- no token of a text is of the kind of its end
    obtain ⟨c, hscan, -, -⟩ := Lexer.scan_of_peek_token hl seen
    have hspell := Cursor.wellSpelled_of_scan hscan
    rw [Token.WellSpelled, (FormState.step_eq_done_iff.mp done).1] at hspell
    exact hspell.elim
  | case3 l s t l₁ seen e q taken step => exact ⟨[], l, s, .start, .refused seen step⟩
  | case4 l s l₁ seen s₁ step => exact absurd step (FormState.step_ne_next_of_end rfl)
  | case5 l s l₁ seen p step => exact ⟨[], l, s, .start, .done seen step⟩
  | case6 l s l₁ seen e q taken step => exact ⟨[], l, s, .start, .unfinished seen step⟩
  | case7 l s e l₁ seen => exact ⟨[], l, s, .start, .failed seen⟩

end Parser

end PrefixForth
