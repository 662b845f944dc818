import PrefixForth.Proofs.Tree.Grammar
import PrefixForth.Proofs.Tree.Reading

/-!
# Parsing and the grammar

The parser holds what it has read in open forms and closes them later; the grammar knows nothing of
that. The two are brought together from both sides:

* *completeness*: the tokens of a derivation lead the parser through its open forms to the tree of
  the derivation (`Form.readAll_tail` and its companions, by recursion on the derivation);
* *soundness*: whatever tokens the parser has taken, they are those of the complete forms followed by
  those of the open ones (`FormState.Holds`), and one step keeps this (`FormState.Holds.step`).

Together they make the parser accept exactly the sequences of the grammar.
-/

namespace PrefixForth

open Grammar

/-! ### Heads and the number of their operands -/

/-- How many operands a head takes, if it takes operands. -/
def arityOf? (head : Token) : Option Arity :=
  match head.kind with
  | .binaryOperator => some (.exactly 2)
  | .unaryOperator => some (.exactly 1)
  | .minus => some ⟨0, none⟩
  | .statement =>
    match Statement.ofKeyword? head.text with
    | some .loop => some ⟨2, none⟩
    | some .choose => some ⟨2, some 3⟩
    | some .print => some (.exactly 1)
    | _ => none
  | _ => none

/-- The number lies within the bounds. -/
def Arity.Allows (a : Arity) (n : Nat) : Prop :=
  a.least ≤ n ∧ ∀ m, a.most = some m → n ≤ m

/-- A head admits what its arity allows; a minus sign counts its operands only at the end. -/
theorem admits_iff {head : Token} {n : Nat} :
    Admits head n ↔ ∃ a, arityOf? head = some a ∧ a.Allows n ∧
      (head.kind = .minus → n = 1 ∨ n = 2) := by
  unfold Admits arityOf?
  cases hk : head.kind with
  | binaryOperator => simp [Arity.Allows, Arity.exactly]; omega
  | unaryOperator => simp [Arity.Allows, Arity.exactly]; omega
  | minus => simp [Arity.Allows]
  | statement =>
    rcases hs : Statement.ofKeyword? head.text with _ | s
    · have hne : ∀ s : Statement, head.text ≠ s.keyword := fun s h => by
        rw [Statement.ofKeyword?_eq_some_iff.mpr h] at hs
        cases hs
      simp [hne]
    · rw [Statement.ofKeyword?_eq_some_iff] at hs
      rw [hs]
      cases s with
      | declare => simp
      | loop => simp [Arity.Allows]
      | choose => simp [Arity.Allows]; omega
      | print => simp [Arity.Allows, Arity.exactly]; omega
  | _ => simp

/-! ### Single steps -/

namespace FormState

/-- The state with another focus. -/
def focusOn (s : FormState) (f : Focus) : FormState :=
  { s with focus := f }

/-- The three ways in which a head is taken. -/
theorem step_head_eq_next_iff {s s' : FormState} {paren head : Token} :
    (s.focusOn (.head paren)).step head = .next s' ↔
      (head.kind = .assignment ∧ s' = s.focusOn (.target paren head)) ∨
      (head.kind = .statement ∧ head.text = Statement.declare.keyword ∧
        s' = s.focusOn (.bindings paren head [])) ∨
      ∃ a, arityOf? head = some a ∧ s' = s.focusOn (.operands ⟨paren, head, a, [], []⟩) := by
  have hstep : (s.focusOn (.head paren)).step head = (s.focusOn (.head paren)).openHead paren head :=
    rfl
  rw [hstep, openHead, arityOf?, ← Statement.ofKeyword?_eq_some_iff]
  cases hk : head.kind with
  | statement =>
    rcases hs : Statement.ofKeyword? head.text with _ | _ | _ | _ | _ <;>
      simp [focusOn, eq_comm]
  | endOfInput => simp [mismatch_ne_next]
  | _ => simp [focusOn, eq_comm]

/-- A token that starts an operand is taken as its start. -/
theorem step_operands_of_start {s : FormState} {q : Operands} {t : Token}
    (hq : q.isFull = false) (ht : StartsOperand t.kind) :
    (s.focusOn (.operands q)).step t = (s.focusOn (.operands q)).openOperand q t := by
  have hnot : ¬(q.isFull = true ∨
      (q.isEnough = true ∧ (t.kind = .closeParen ∨ t.kind = .endOfInput))) := by
    rintro (h | ⟨-, h | h⟩)
    · rw [hq] at h
      cases h
    · exact ht.ne_closeParen h
    · rw [h] at ht
      rcases ht with h | h | h <;> cases h
  rw [step, focusOn]
  exact if_neg hnot

/-- The closing parenthesis is taken where the head admits the operands. -/
theorem step_operands_of_close {s : FormState} {q : Operands} {t : Token}
    (hsigns : q.signs = []) (hq : q.arity.least ≤ q.done.length) (ht : t.kind = .closeParen)
    {n : Node} (hn : q.close? = some n) :
    (s.focusOn (.operands q)).step t = .next (s.complete n) := by
  have henough : q.isEnough = true := by simp [Operands.isEnough, hsigns, hq]
  rw [step, focusOn]
  simp only [henough, ht, true_or, and_self, or_true, if_true, hn, closeWith]
  rfl

end FormState

private theorem Operands.close?_eq {q : Operands} (h : Admits q.head q.done.length) :
    q.close? = some (.mk (classified q.head q.done.length) q.done) := by
  rw [close?, classified]
  split
  · rename_i hk
    simp only [Admits, hk] at h
    rcases h with h | h
    · obtain ⟨a, ha⟩ := List.length_eq_one_iff.mp h
      simp [ha]
    · obtain ⟨a, b, hab⟩ := List.length_eq_two.mp h
      simp [hab]
  · rfl

/-- A node behind a minus sign is the operand of that sign. -/
theorem Operands.add_leaf_sign (q : Operands) (sign : Token) (n : Node) :
    ({ q with signs := sign :: q.signs } : Operands).add n =
      q.add (.mk { sign with kind := .unaryOperator } [n]) := rfl

/-! ### Completeness -/

namespace Grammar

open FormState

/-- The declarations of a `let` are read one after the other. -/
theorem Binding.readAll_flatMap {bs : List Binding} (h : ∀ b ∈ bs, b.Valid) (s : FormState)
    (paren head : Token) (done : List Node) (rest : List Token) :
    (s.focusOn (.bindings paren head done)).readAll (bs.flatMap Binding.tokens ++ rest) =
      (s.focusOn (.bindings paren head (done ++ bs.map Binding.tree))).readAll rest := by
  induction bs generalizing done with
  | nil => simp
  | cons b bs ih =>
    obtain ⟨hparen, hname, htype, hclose⟩ := h b List.mem_cons_self
    have hone : (s.focusOn (.bindings paren head done)).readAll b.tokens =
        some (s.focusOn (.bindings paren head (done ++ [b.tree]))) := by
      simp [Binding.tokens, FormState.readAll, step, focusOn, hparen, hname, htype, hclose,
        Binding.tree]
    rw [List.flatMap_cons, List.append_assoc, readAll_append hone,
      ih (fun b hb => h b (List.mem_cons_of_mem _ hb))]
    simp

mutual

/-- After its parenthesis, a form is read to its end. -/
theorem Form.readAll_tail : ∀ (f : Form), f.Valid → ∀ (s : FormState) (paren : Token)
    (rest : List Token),
    (s.focusOn (.head paren)).readAll (f.tokens.tail ++ rest) = (s.complete f.tree).readAll rest
  | .assignment _ head target value close, h, s, paren, rest => by
    simp only [Form.Valid] at h
    obtain ⟨-, hhead, htarget, hvalue, hclose⟩ := h
    have h₁ : (s.focusOn (.head paren)).step head = _ :=
      step_head_eq_next_iff.mpr (.inl ⟨hhead, rfl⟩)
    have h₂ : (s.focusOn (.target paren head)).step target =
        .next (s.focusOn (.operands ⟨paren, head, .exactly 2, [.leaf target], []⟩)) := by
      simp [step, focusOn, htarget]
    simp only [Form.tokens, List.tail_cons, List.cons_append, List.append_assoc]
    rw [readAll_cons_of_next h₁, readAll_cons_of_next h₂,
      Operand.readAll_tokens value hvalue _ _ (by rfl)]
    refine readAll_cons_of_next (step_operands_of_close rfl (Nat.le_refl 2) hclose ?_)
    simp [Operands.add, Operands.signed, Operands.close?, hhead, Form.tree]
  | .operation _ head operands close, h, s, paren, rest => by
    simp only [Form.Valid] at h
    obtain ⟨-, hadmits, hoperands, hclose⟩ := h
    -- the arity of the head is what the grammar admits
    obtain ⟨a, ha, hallows, -⟩ := admits_iff.mp hadmits
    have h₁ : (s.focusOn (.head paren)).step head = _ :=
      step_head_eq_next_iff.mpr (.inr (.inr ⟨a, ha, rfl⟩))
    simp only [Form.tokens, List.tail_cons, List.cons_append, List.append_assoc]
    rw [readAll_cons_of_next h₁,
      Operand.readAll_tokensAll operands hoperands _ _ rfl (by simpa using hallows.2)]
    refine readAll_cons_of_next (step_operands_of_close rfl (by simpa using hallows.1) hclose ?_)
    simp only [List.nil_append]
    rw [Operands.close?_eq (by simpa using hadmits)]
    simp [Form.tree]
  | .declaration _ head bindings close, h, s, paren, rest => by
    simp only [Form.Valid] at h
    obtain ⟨-, hhead, htext, hne, hbindings, hclose⟩ := h
    have h₁ : (s.focusOn (.head paren)).step head = _ :=
      step_head_eq_next_iff.mpr (.inr (.inl ⟨hhead, htext, rfl⟩))
    have h₂ : (s.focusOn (.bindings paren head (bindings.map Binding.tree))).step close =
        .next (s.complete (.mk head (bindings.map Binding.tree))) := by
      simp only [step, focusOn, hclose, closeWith, if_true, List.isEmpty_iff, List.map_eq_nil_iff,
        hne, if_false]
      rfl
    simp only [Form.tokens, List.tail_cons, List.cons_append, List.append_assoc]
    rw [readAll_cons_of_next h₁, Binding.readAll_flatMap hbindings, List.nil_append]
    exact readAll_cons_of_next h₂

/-- An operand is read where the innermost form still takes one. -/
theorem Operand.readAll_tokens : ∀ (o : Operand), o.Valid → ∀ (s : FormState) (q : Operands),
    q.isFull = false → ∀ (rest : List Token),
    (s.focusOn (.operands q)).readAll (o.tokens ++ rest) =
      (s.focusOn (.operands (q.add o.tree))).readAll rest
  | .form f, h, s, q, hq, rest => by
    obtain ⟨paren, tail, htokens, hparen⟩ := Form.exists_tokens_eq h
    have hstep : (s.focusOn (.operands q)).step paren =
        .next (({ s with around := q :: s.around } : FormState).focusOn (.head paren)) := by
      rw [step_operands_of_start hq (.inl hparen)]
      simp [openOperand, hparen, TokenKind.isOperand, TokenKind.isLiteral, focusOn]
    have htail := Form.readAll_tail f h { s with around := q :: s.around } paren rest
    rw [htokens, List.tail_cons] at htail
    rw [Operand.tokens, htokens, List.cons_append, readAll_cons_of_next hstep, htail]
    rfl
  | .leaf t, h, s, q, hq, rest => by
    rw [Operand.Valid] at h
    have hstep : (s.focusOn (.operands q)).step t =
        .next (s.focusOn (.operands (q.add (.leaf t)))) := by
      rw [step_operands_of_start hq (.inr (.inl h)), openOperand, if_pos h]
      rfl
    exact readAll_cons_of_next hstep
  | .negation sign operand, h, s, q, hq, rest => by
    obtain ⟨hsign, hoperand⟩ := h
    have hstep : (s.focusOn (.operands q)).step sign =
        .next (s.focusOn (.operands { q with signs := sign :: q.signs })) := by
      rw [step_operands_of_start hq (.inr (.inr hsign))]
      simp [openOperand, hsign, TokenKind.isOperand, TokenKind.isLiteral, focusOn]
    rw [Operand.tokens, List.cons_append, readAll_cons_of_next hstep,
      Operand.readAll_tokens operand hoperand _ _ (by simp [Operands.isFull]),
      Operands.add_leaf_sign]
    rfl

/-- Operands are read one after the other where the innermost form takes as many. -/
theorem Operand.readAll_tokensAll : ∀ (os : List Operand), Operand.ValidAll os →
    ∀ (s : FormState) (q : Operands), q.signs = [] →
    (∀ m, q.arity.most = some m → q.done.length + os.length ≤ m) → ∀ (rest : List Token),
    (s.focusOn (.operands q)).readAll (Operand.tokensAll os ++ rest) =
      (s.focusOn (.operands { q with done := q.done ++ Operand.treeAll os })).readAll rest
  | [], _, s, q, _, _, rest => by simp [Operand.tokensAll, Operand.treeAll]
  | o :: os, h, s, q, hsigns, hmost, rest => by
    have hfull : q.isFull = false := by
      rw [Operands.isFull, hsigns, List.isEmpty_nil, Bool.true_and, beq_eq_false_iff_ne]
      intro hm
      have := hmost _ hm
      simp only [List.length_cons] at this
      omega
    have hadd : q.add o.tree = { q with done := q.done ++ [o.tree] } := by
      simp [Operands.add, Operands.signed, hsigns]
    rw [Operand.tokensAll, List.append_assoc, Operand.readAll_tokens o h.1 s q hfull, hadd,
      Operand.readAll_tokensAll os h.2 s { q with done := q.done ++ [o.tree] } hsigns ?_]
    · simp [Operand.treeAll]
    · intro m hm
      have := hmost m hm
      simp only [List.length_cons, List.length_append, List.length_nil] at this ⊢
      omega

end

/-- The tokens of a derivation are read, and give its trees. -/
theorem Derivation.readAll_tokens {d : Derivation} (h : d.Valid) (s : FormState)
    (hfocus : s.focus = .top) (haround : s.around = []) :
    s.readAll d.tokens = some { s with forms := s.forms ++ d.program } := by
  induction d generalizing s with
  | nil => simp [Derivation.tokens, Derivation.program, FormState.readAll]
  | cons f d ih =>
    have hf := h f List.mem_cons_self
    obtain ⟨paren, tail, htokens, hparen⟩ := Form.exists_tokens_eq hf
    have hstep : s.step paren = .next (s.focusOn (.head paren)) := by
      simp [step, hfocus, hparen, focusOn]
    have htail := Form.readAll_tail f hf s paren (Derivation.tokens d)
    rw [htokens, List.tail_cons] at htail
    have hcomplete : s.complete f.tree = { s with forms := s.forms ++ [f.tree] } := by
      rw [complete, haround]
      simp [hfocus]
    have hcons : Derivation.tokens (f :: d) = paren :: (tail ++ Derivation.tokens d) := by
      rw [Derivation.tokens, List.flatMap_cons, htokens]
      rfl
    rw [hcons, readAll_cons_of_next hstep, htail, hcomplete,
      ih (fun g hg => h g (List.mem_cons_of_mem _ hg)) { s with forms := s.forms ++ [f.tree] }
        hfocus haround]
    simp [Derivation.program]

end Grammar

/-! ### What an open form holds -/

/-- The arity of a head leaves room for the least number of operands. -/
theorem arityOf?_least_le {head : Token} {a : Arity} (h : arityOf? head = some a) {m : Nat}
    (hm : a.most = some m) : a.least ≤ m := by
  cases hk : head.kind <;> simp only [arityOf?, hk, reduceCtorEq, Option.some.injEq] at h
  case binaryOperator | unaryOperator =>
    subst h
    exact Nat.le_of_eq (Option.some.inj hm)
  case minus =>
    subst h
    cases hm
  case statement =>
    split at h <;> cases h
    · cases hm
    · exact Option.some.inj hm ▸ Nat.le_succ 2
    · exact Nat.le_of_eq (Option.some.inj hm)

namespace Grammar

/-- The operand with minus signs before it, the last one first. -/
def Operand.signed (signs : List Token) (o : Operand) : Operand :=
  signs.foldl (fun x sign => .negation sign x) o

private theorem Operand.valid_signed {signs : List Token} (hsigns : ∀ t ∈ signs, t.kind = .minus)
    {o : Operand} (ho : o.Valid) : (o.signed signs).Valid := by
  induction signs generalizing o with
  | nil => exact ho
  | cons sign signs ih =>
    have hsign := hsigns sign List.mem_cons_self
    exact ih (fun t ht => hsigns t (List.mem_cons_of_mem _ ht)) (o := .negation sign o) ⟨hsign, ho⟩

private theorem Operand.tokens_signed (signs : List Token) (o : Operand) :
    (o.signed signs).tokens = signs.reverse ++ o.tokens := by
  induction signs generalizing o with
  | nil => rfl
  | cons sign signs ih =>
    have := ih (.negation sign o)
    simpa [Operand.signed, Operand.tokens] using this

private theorem Operand.tree_signed (signs : List Token) (o : Operand) :
    (o.signed signs).tree = Operands.signed signs o.tree := by
  induction signs generalizing o with
  | nil => rfl
  | cons sign signs ih => exact ih (.negation sign o)

end Grammar

namespace Operands

/-- The form takes at least one more operand. -/
def HasRoom (o : Operands) : Prop :=
  ∀ m, o.arity.most = some m → o.done.length < m

/-- The tokens and the trees that stand before the operands: an assignment has its target there. -/
inductive Opens (o : Operands) : List Token → List Node → Prop
  | assignment {target : Token} (head : o.head.kind = .assignment) (arity : o.arity = .exactly 2)
      (target_kind : target.kind = .identifier) :
      Opens o [o.paren, o.head, target] [.leaf target]
  | operation (arity : arityOf? o.head = some o.arity) : Opens o [o.paren, o.head] []

/-- The open form was read from the tokens. -/
structure Holds (o : Operands) (ts : List Token) : Prop where
  paren : o.paren.kind = .openParen
  parts : ∃ first trees operands, o.Opens first trees ∧ Operand.ValidAll operands ∧
    o.done = trees ++ Operand.treeAll operands ∧
    ts = first ++ Operand.tokensAll operands ++ o.signs.reverse
  signs : ∀ t ∈ o.signs, t.kind = .minus
  fits : ∀ m, o.arity.most = some m → o.done.length ≤ m
  /-- A minus sign is only read where an operand may follow. -/
  room : o.signs ≠ [] → o.HasRoom

namespace Holds

variable {o : Operands} {ts : List Token}

private theorem hasRoom (h : o.Holds ts) (hfull : o.isFull = false) : o.HasRoom := by
  by_cases hsigns : o.signs = []
  · intro m hm
    rw [isFull, hsigns, List.isEmpty_nil, Bool.true_and, beq_eq_false_iff_ne] at hfull
    refine Nat.lt_of_le_of_ne (h.fits m hm) ?_
    rintro rfl
    exact hfull hm
  · exact h.room hsigns

/-- The form holds one more operand. -/
theorem add (h : o.Holds ts) (hroom : o.HasRoom) {x : Operand} (hx : x.Valid) :
    (o.add x.tree).Holds (ts ++ x.tokens) := by
  obtain ⟨first, trees, operands, hopens, hvalid, hdone, hts⟩ := h.parts
  have hsigned := Operand.valid_signed h.signs hx
  refine ⟨h.paren, ⟨first, trees, operands ++ [x.signed o.signs], ?_, ?_, ?_, ?_⟩, ?_, ?_, ?_⟩
  · cases hopens with
    | assignment head arity target => exact .assignment head arity target
    | operation arity => exact .operation arity
  · rw [Operand.validAll_append]
    exact ⟨hvalid, hsigned, trivial⟩
  · rw [Operand.treeAll_append, ← List.append_assoc, ← hdone, Operand.treeAll, Operand.treeAll,
      Operand.tree_signed]
    rfl
  · rw [Operand.tokensAll_append, Operand.tokensAll, Operand.tokensAll, Operand.tokens_signed, hts]
    simp [Operands.add]
  · simp [Operands.add]
  · intro m hm
    rw [Operands.add, List.length_append]
    exact hroom m hm
  · simp [Operands.add]

/-- The form holds one more minus sign. -/
theorem sign (h : o.Holds ts) (hroom : o.HasRoom) {t : Token} (ht : t.kind = .minus) :
    ({ o with signs := t :: o.signs } : Operands).Holds (ts ++ [t]) := by
  obtain ⟨first, trees, operands, hopens, hvalid, hdone, hts⟩ := h.parts
  refine ⟨h.paren, ⟨first, trees, operands, ?_, hvalid, hdone, ?_⟩, ?_, h.fits, fun _ => hroom⟩
  · cases hopens with
    | assignment head arity target => exact .assignment head arity target
    | operation arity => exact .operation arity
  · simp [hts]
  · rintro t' (_ | ⟨_, ht'⟩)
    · exact ht
    · exact h.signs t' ht'

/-- A form that has to be closed has enough operands. -/
theorem isEnough_of_isFull (h : o.Holds ts) (hfull : o.isFull = true) : o.isEnough = true := by
  obtain ⟨first, trees, operands, hopens, -⟩ := h.parts
  rw [isFull, Bool.and_eq_true, beq_iff_eq] at hfull
  obtain ⟨hsigns, hmost⟩ := hfull
  rw [isEnough, hsigns, Bool.true_and, decide_eq_true_eq]
  cases hopens with
  | assignment _ arity =>
    rw [arity, Arity.exactly, Option.some.injEq] at hmost
    rw [arity]
    exact Nat.le_of_eq hmost
  | operation arity => exact arityOf?_least_le arity hmost

/-- The tokens of a form that is closed are those of its derivation. -/
theorem close (h : o.Holds ts) (henough : o.isEnough = true) {n : Node} (hn : o.close? = some n)
    {t : Token} (ht : t.kind = .closeParen) :
    ∃ f : Form, f.Valid ∧ f.tokens = ts ++ [t] ∧ f.tree = n := by
  obtain ⟨first, trees, operands, hopens, hvalid, hdone, hts⟩ := h.parts
  rw [isEnough, Bool.and_eq_true, decide_eq_true_eq, List.isEmpty_iff] at henough
  obtain ⟨hsigns, hleast⟩ := henough
  have hfits := h.fits
  rw [hsigns, List.reverse_nil, List.append_nil] at hts
  rw [hdone] at hleast hfits
  cases hopens with
  | @assignment target head arity htarget =>
    -- The bounds leave exactly one operand beside the target.
    rw [arity] at hleast hfits
    have hlength : operands.length = 1 := by
      have := hfits 2 rfl
      simp [Arity.exactly] at hleast this
      omega
    obtain ⟨x, rfl⟩ := List.length_eq_one_iff.mp hlength
    refine ⟨.assignment o.paren o.head target x t, ⟨h.paren, head, htarget, hvalid.1, ht⟩, ?_, ?_⟩
    · simp [hts, Form.tokens, Operand.tokensAll]
    · simp only [close?, head, reduceCtorEq, if_false, Option.some.injEq] at hn
      rw [← hn, hdone]
      rfl
  | operation arity =>
    rw [List.nil_append, Operand.length_treeAll] at hleast hfits
    have hminus : o.head.kind = .minus → operands.length = 1 ∨ operands.length = 2 := by
      intro hk
      rw [close?, if_pos hk, hdone] at hn
      split at hn
      · rename_i heq
        exact .inl (by simpa using congrArg List.length heq)
      · rename_i heq
        exact .inr (by simpa using congrArg List.length heq)
      · cases hn
    have hadmits : Admits o.head operands.length :=
      admits_iff.mpr ⟨o.arity, arity, ⟨hleast, hfits⟩, hminus⟩
    refine ⟨.operation o.paren o.head operands t, ⟨h.paren, hadmits, hvalid, ht⟩, ?_, ?_⟩
    · simp [hts, Form.tokens]
    · rw [close?_eq (by simpa [hdone] using hadmits), Option.some.injEq] at hn
      rw [← hn, hdone]
      simp [Form.tree]

end Holds

end Operands

/-! ### Soundness -/

/-- A `let` with these declarations was read from the tokens. -/
def HoldsBindings (paren head : Token) (done : List Node) (ts : List Token) : Prop :=
  paren.kind = .openParen ∧ head.kind = .statement ∧ head.text = Statement.declare.keyword ∧
    ∃ bs : List Binding, (∀ b ∈ bs, b.Valid) ∧ done = bs.map Binding.tree ∧
      ts = paren :: head :: bs.flatMap Binding.tokens

/-- The innermost open form was read from the tokens. -/
def Focus.Holds : Focus → List Token → Prop
  | .top, ts => ts = []
  | .head paren, ts => paren.kind = .openParen ∧ ts = [paren]
  | .target paren op, ts => paren.kind = .openParen ∧ op.kind = .assignment ∧ ts = [paren, op]
  | .operands o, ts => o.Holds ts
  | .bindings paren op done, ts => HoldsBindings paren op done ts
  | .bindingName paren op done inner, ts =>
    inner.kind = .openParen ∧ ∃ us, HoldsBindings paren op done us ∧ ts = us ++ [inner]
  | .bindingType paren op done inner name, ts =>
    inner.kind = .openParen ∧ name.kind = .identifier ∧
      ∃ us, HoldsBindings paren op done us ∧ ts = us ++ [inner, name]
  | .bindingEnd paren op done inner name type, ts =>
    inner.kind = .openParen ∧ name.kind = .identifier ∧ type.kind = .typeKeyword ∧
      ∃ us, HoldsBindings paren op done us ∧ ts = us ++ [inner, name, type]

/-- The forms around the innermost one, the nearest first, were read from the tokens; each of them
waits for an operand. -/
inductive HoldsAround : List Operands → List Token → Prop
  | nil : HoldsAround [] []
  | cons {o : Operands} {os : List Operands} {ts us : List Token} :
      HoldsAround os ts → o.Holds us → o.HasRoom → HoldsAround (o :: os) (ts ++ us)

/-- The state was reached by reading the tokens. -/
structure FormState.Holds (s : FormState) (ts : List Token) : Prop where
  parts : ∃ (d : Derivation) (us vs : List Token), d.Valid ∧ s.forms = d.program ∧
    HoldsAround s.around us ∧ s.focus.Holds vs ∧ ts = d.tokens ++ us ++ vs
  around_of_top : s.focus = .top → s.around = []

namespace FormState

/-- A complete form is one more top-level form, or one more operand of the form around it. -/
theorem holds_complete {s : FormState} {d : Derivation} {us : List Token} (hd : d.Valid)
    (hforms : s.forms = d.program) (haround : HoldsAround s.around us) {f : Form} (hf : f.Valid) :
    (s.complete f.tree).Holds (d.tokens ++ us ++ f.tokens) := by
  rcases hs : s.around with _ | ⟨o, os⟩
  · rw [hs] at haround
    cases haround
    have hcomplete : s.complete f.tree = { s with forms := s.forms ++ [f.tree], focus := .top } := by
      rw [complete, hs]
    rw [hcomplete]
    refine ⟨⟨d ++ [f], [], [], ?_, ?_, ?_, ?_, ?_⟩, fun _ => hs⟩
    · intro g hg
      rcases List.mem_append.mp hg with hg | hg
      · exact hd g hg
      · rw [List.mem_singleton.mp hg]
        exact hf
    · simp [hforms, Derivation.program]
    · rw [hs]
      exact .nil
    · rw [Focus.Holds]
    · simp [Derivation.tokens]
  · rw [hs] at haround
    cases haround with
    | @cons _ _ ts us hos ho hroom =>
      have hcomplete : s.complete f.tree =
          { s with focus := .operands (o.add f.tree), around := os } := by rw [complete, hs]
      rw [hcomplete]
      have hadd := ho.add hroom (x := .form f) hf
      rw [Operand.tree, Operand.tokens] at hadd
      refine ⟨⟨d, ts, us ++ f.tokens, hd, hforms, hos, ?_, ?_⟩, Focus.noConfusion⟩
      · rw [Focus.Holds]
        exact hadd
      · simp

/-- The end of the innermost form. -/
theorem closeWith_eq_next {s s' : FormState} {n : Node} {t : Token}
    (h : s.closeWith n t = .next s') : t.kind = .closeParen ∧ s' = s.complete n := by
  rw [closeWith] at h
  split at h
  · rename_i ht
    exact ⟨ht, (FormStep.next.inj h).symm⟩
  · exact absurd h (mismatch_ne_next)

/-- The token lets the innermost form go on, and it then waits for something else. -/
inductive GoesOn (t : Token) : Focus → Focus → Prop
  | open (kind : t.kind = .openParen) : GoesOn t .top (.head t)
  | assignment {paren : Token} (kind : t.kind = .assignment) : GoesOn t (.head paren) (.target paren t)
  | declaration {paren : Token} (kind : t.kind = .statement)
      (text : t.text = Statement.declare.keyword) : GoesOn t (.head paren) (.bindings paren t [])
  | operation {paren : Token} {a : Arity} (arity : arityOf? t = some a) :
      GoesOn t (.head paren) (.operands ⟨paren, t, a, [], []⟩)
  | target {paren head : Token} (kind : t.kind = .identifier) :
      GoesOn t (.target paren head) (.operands ⟨paren, head, .exactly 2, [.leaf t], []⟩)
  | leaf {o : Operands} (kind : t.kind.isOperand = true) :
      GoesOn t (.operands o) (.operands (o.add (.leaf t)))
  | sign {o : Operands} (kind : t.kind = .minus) :
      GoesOn t (.operands o) (.operands { o with signs := t :: o.signs })
  | binding {paren head : Token} {done : List Node} (kind : t.kind = .openParen) :
      GoesOn t (.bindings paren head done) (.bindingName paren head done t)
  | bindingName {paren head inner : Token} {done : List Node} (kind : t.kind = .identifier) :
      GoesOn t (.bindingName paren head done inner) (.bindingType paren head done inner t)
  | bindingType {paren head inner name : Token} {done : List Node} (kind : t.kind = .typeKeyword) :
      GoesOn t (.bindingType paren head done inner name) (.bindingEnd paren head done inner name t)
  | bindingEnd {paren head inner name type : Token} {done : List Node} (kind : t.kind = .closeParen) :
      GoesOn t (.bindingEnd paren head done inner name type)
        (.bindings paren head (done ++ [.mk inner [.leaf name, .leaf type]]))

/-- What a token that is taken does to the open forms: the innermost one goes on, a form is opened in
it, or it is closed. -/
inductive Takes (s : FormState) (t : Token) : FormState → Prop
  | next {f : Focus} (goesOn : GoesOn t s.focus f) : Takes s t { s with focus := f }
  | nest {o : Operands} (focus : s.focus = .operands o) (kind : t.kind = .openParen) :
      Takes s t { s with focus := .head t, around := o :: s.around }
  | close {n : Node} (kind : t.kind = .closeParen)
      (tree : ∀ o, s.focus = .operands o → o.close? = some n) : Takes s t (s.complete n)

/-- All that a step can do. -/
theorem takes_of_step {s s' : FormState} {t : Token} (h : s.step t = .next s') : Takes s t s' := by
  -- by what the innermost form waits for; a token that does not fit leads to a fault, not to a step
  obtain ⟨forms, focus, around, stale⟩ := s
  cases focus with
  | top =>
    simp only [FormState.step] at h
    split at h
    · rename_i hk
      cases h
      exact .next (.open hk)
    · cases h
    · exact absurd h mismatch_ne_next
    · cases h
  | head paren =>
    have hcases := step_head_eq_next_iff (s := ⟨forms, .top, around, stale⟩).mp h
    rcases hcases with ⟨hk, rfl⟩ | ⟨hk, htext, rfl⟩ | ⟨a, ha, rfl⟩
    · exact .next (.assignment hk)
    · exact .next (.declaration hk htext)
    · exact .next (.operation ha)
  | target paren head =>
    simp only [FormState.step] at h
    split at h
    · rename_i hk
      cases h
      exact .next (.target hk)
    · cases h
  | operands o =>
    simp only [FormState.step] at h
    split at h
    · split at h
      · rename_i n hn
        obtain ⟨hk, rfl⟩ := closeWith_eq_next h
        exact .close hk fun o' ho' => Focus.operands.inj ho' ▸ hn
      · cases h
    · rw [openOperand] at h
      split at h
      · rename_i hk
        cases h
        exact .next (.leaf hk)
      · split at h
        · rename_i hk
          cases h
          exact .nest rfl hk
        · rename_i hk
          cases h
          exact .next (.sign hk)
        · exact absurd h mismatch_ne_next
        · cases h
        · cases h
  | bindings paren head done =>
    -- a parenthesis and the end of the text are both met here, but only the parenthesis closes
    have hclose : (if done.isEmpty then .fault .noBindings head.position false
        else closeWith ⟨forms, .bindings paren head done, around, stale⟩ (.mk head done) t) =
          .next s' → Takes ⟨forms, .bindings paren head done, around, stale⟩ t s' := by
      intro h
      split at h
      · cases h
      · obtain ⟨hk, rfl⟩ := closeWith_eq_next h
        exact .close hk fun o ho => Focus.noConfusion ho
    simp only [FormState.step] at h
    split at h
    · rename_i hk
      cases h
      exact .next (.binding hk)
    · exact hclose h
    · exact hclose h
    · cases h
  | bindingName paren head done inner =>
    simp only [FormState.step] at h
    split at h
    · rename_i hk
      cases h
      exact .next (.bindingName hk)
    · cases h
  | bindingType paren head done inner name =>
    simp only [FormState.step] at h
    split at h
    · rename_i hk
      cases h
      exact .next (.bindingType hk)
    · cases h
  | bindingEnd paren head done inner name type =>
    simp only [FormState.step] at h
    split at h
    · rename_i hk
      cases h
      exact .next (.bindingEnd hk)
    · exact absurd h mismatch_ne_next

/-- A token in a list of operands. -/
theorem holds_of_step_operands {s s' : FormState} {o : Operands} {d : Derivation}
    {us vs : List Token} {t : Token} (hd : d.Valid) (hforms : s.forms = d.program)
    (haround : HoldsAround s.around us) (hfocus : s.focus = .operands o) (ho : o.Holds vs)
    (hstep : s.step t = .next s') : s'.Holds (d.tokens ++ us ++ vs ++ [t]) := by
  simp only [FormState.step, hfocus] at hstep
  split at hstep
  · rename_i hend
    -- a full form has enough, whatever token comes
    have henough : o.isEnough = true := by
      rcases hend with hfull | ⟨henough, -⟩
      · exact ho.isEnough_of_isFull hfull
      · exact henough
    split at hstep
    · rename_i n hn
      obtain ⟨ht, rfl⟩ := closeWith_eq_next hstep
      obtain ⟨f, hf, htokens, rfl⟩ := ho.close henough hn ht
      have := holds_complete hd hforms haround hf
      rwa [htokens, ← List.append_assoc] at this
    · cases hstep
  · rename_i hend
    have hroom : o.HasRoom := ho.hasRoom (by simpa using fun h => hend (.inl h))
    rw [openOperand] at hstep
    split at hstep
    · rename_i ht
      cases hstep
      refine ⟨⟨d, us, vs ++ [t], hd, hforms, haround, ?_, ?_⟩, nofun⟩
      · have hadd := ho.add hroom (x := .leaf t) ht
        rwa [Operand.tree, Operand.tokens] at hadd
      · simp
    · split at hstep
      · rename_i ht
        cases hstep
        refine ⟨⟨d, us ++ vs, [t], hd, hforms, haround.cons ho hroom, ⟨ht, rfl⟩, ?_⟩, nofun⟩
        simp
      · rename_i ht
        cases hstep
        refine ⟨⟨d, us, vs ++ [t], hd, hforms, haround, ho.sign hroom ht, ?_⟩, nofun⟩
        simp
      · exact absurd hstep mismatch_ne_next
      · cases hstep
      · cases hstep

/-- A token in a list of declarations. -/
theorem holds_of_step_bindings {s s' : FormState} {paren op : Token} {done : List Node}
    {d : Derivation} {us vs : List Token} {t : Token} (hd : d.Valid) (hforms : s.forms = d.program)
    (haround : HoldsAround s.around us) (hfocus : s.focus = .bindings paren op done)
    (hbindings : HoldsBindings paren op done vs) (hstep : s.step t = .next s') :
    s'.Holds (d.tokens ++ us ++ vs ++ [t]) := by
  have hclose : (if done.isEmpty then .fault .noBindings op.position false
      else s.closeWith (.mk op done) t) = .next s' → s'.Holds (d.tokens ++ us ++ vs ++ [t]) := by
    intro h
    split at h
    · cases h
    · rename_i hne
      obtain ⟨ht, rfl⟩ := closeWith_eq_next h
      obtain ⟨hparen, hop, htext, bs, hbs, rfl, rfl⟩ := hbindings
      have hf : (Form.declaration paren op bs t).Valid :=
        ⟨hparen, hop, htext, by simpa using hne, hbs, ht⟩
      have := holds_complete hd hforms haround hf
      simpa [Form.tokens, Form.tree] using this
  simp only [FormState.step, hfocus] at hstep
  split at hstep
  · rename_i ht
    cases hstep
    refine ⟨⟨d, us, vs ++ [t], hd, hforms, haround, ⟨ht, vs, hbindings, rfl⟩, ?_⟩, nofun⟩
    simp
  · exact hclose hstep
  · exact hclose hstep
  · cases hstep

/-- One step keeps account of the tokens read. -/
theorem Holds.step {s s' : FormState} {ts : List Token} {t : Token} (h : s.Holds ts)
    (hstep : s.step t = .next s') : s'.Holds (ts ++ [t]) := by
  obtain ⟨⟨d, us, vs, hd, hforms, haround, hfocus, rfl⟩, htop⟩ := h
  obtain ⟨forms, focus, around, stale⟩ := s
  -- Most steps change the focus and nothing else.
  have hrefocus : ∀ {g : Focus} (ws : List Token), g ≠ .top → g.Holds ws → ws = vs ++ [t] →
      (FormState.mk forms g around stale).Holds (d.tokens ++ us ++ vs ++ [t]) := by
    intro g ws hne hg hws
    refine ⟨⟨d, us, ws, hd, hforms, haround, hg, ?_⟩, fun h => absurd h hne⟩
    simp [hws]
  cases focus with
  | top =>
    cases hfocus
    simp only [FormState.step] at hstep
    split at hstep
    · rename_i hk
      cases hstep
      exact hrefocus [t] nofun ⟨hk, rfl⟩ rfl
    · cases hstep
    · exact absurd hstep (mismatch_ne_next)
    · cases hstep
  | head paren =>
    obtain ⟨hparen, rfl⟩ := hfocus
    have hcases := step_head_eq_next_iff (s := ⟨forms, .top, around, stale⟩).mp hstep
    rcases hcases with ⟨hk, hs'⟩ | ⟨hk, htext, hs'⟩ | ⟨a, ha, hs'⟩ <;> rw [hs', focusOn]
    · exact hrefocus [paren, t] nofun ⟨hparen, hk, rfl⟩ rfl
    · exact hrefocus [paren, t] nofun ⟨hparen, hk, htext, [], by simp, rfl, rfl⟩ rfl
    · have ho : Operands.Holds ⟨paren, t, a, [], []⟩ [paren, t] :=
        ⟨hparen, ⟨_, _, [], .operation ha, trivial, rfl, rfl⟩, nofun, fun m _ => Nat.zero_le m, nofun⟩
      exact hrefocus _ nofun ho rfl
  | target paren head =>
    obtain ⟨hparen, hhead, rfl⟩ := hfocus
    simp only [FormState.step] at hstep
    split at hstep
    · rename_i hk
      cases hstep
      have hfits : ∀ m, (Arity.exactly 2).most = some m → 1 ≤ m := by
        intro m hm
        cases hm
        exact Nat.le_succ 1
      have ho : Operands.Holds ⟨paren, head, .exactly 2, [.leaf t], []⟩ [paren, head, t] :=
        ⟨hparen, ⟨_, _, [], .assignment hhead rfl hk, trivial, rfl, rfl⟩, nofun, hfits, nofun⟩
      exact hrefocus _ nofun ho rfl
    · cases hstep
  | operands o => exact holds_of_step_operands hd hforms haround rfl hfocus hstep
  | bindings paren head done => exact holds_of_step_bindings hd hforms haround rfl hfocus hstep
  | bindingName paren head done inner =>
    obtain ⟨hinner, ws, hws, rfl⟩ := hfocus
    simp only [FormState.step] at hstep
    split at hstep
    · rename_i hk
      cases hstep
      exact hrefocus _ nofun ⟨hinner, hk, ws, hws, rfl⟩ (by simp)
    · cases hstep
  | bindingType paren head done inner name =>
    obtain ⟨hinner, hname, ws, hws, rfl⟩ := hfocus
    simp only [FormState.step] at hstep
    split at hstep
    · rename_i hk
      cases hstep
      exact hrefocus _ nofun ⟨hinner, hname, hk, ws, hws, rfl⟩ (by simp)
    · cases hstep
  | bindingEnd paren head done inner name type =>
    obtain ⟨hinner, hname, htype, ws, ⟨hparen, hhead, htext, bs, hbs, rfl, rfl⟩, rfl⟩ := hfocus
    simp only [FormState.step] at hstep
    split at hstep
    · rename_i hk
      cases hstep
      have hvalid : ∀ b ∈ bs ++ [⟨inner, name, type, t⟩], b.Valid := by
        intro b hb
        rcases List.mem_append.mp hb with hb | hb
        · exact hbs b hb
        · rw [List.mem_singleton.mp hb]
          exact ⟨hinner, hname, htype, hk⟩
      refine hrefocus _ nofun ⟨hparen, hhead, htext, bs ++ [⟨inner, name, type, t⟩], hvalid, ?_, rfl⟩ ?_
      · simp [Binding.tree]
      · simp [Binding.tokens]
    · exact absurd hstep mismatch_ne_next

/-- What one step keeps, a run keeps. -/
theorem Holds.readAll {s s' : FormState} {ts us : List Token} (h : s.Holds ts)
    (hread : s.readAll us = some s') : s'.Holds (ts ++ us) := by
  induction us generalizing s ts with
  | nil =>
    rw [FormState.readAll, Option.some.injEq] at hread
    rwa [← hread, List.append_nil]
  | cons t us ih =>
    rw [FormState.readAll] at hread
    split at hread
    · rename_i s₁ hstep
      have := ih (h.step hstep) hread
      rwa [List.append_assoc] at this
    · cases hread

theorem holds_nil : ({} : FormState).Holds [] :=
  ⟨⟨[], [], [], nofun, rfl, .nil, rfl, rfl⟩, fun _ => rfl⟩

/-- The sequences that can be read to the end are those of the grammar. -/
theorem readAll_eq_top_iff {ts : List Token} {p : Program} :
    (∃ s, ({} : FormState).readAll ts = some s ∧ s.focus = .top ∧ s.forms = p) ↔
      ∃ d : Derivation, d.Valid ∧ d.tokens = ts ∧ d.program = p := by
  constructor
  · rintro ⟨s, hread, hfocus, rfl⟩
    obtain ⟨⟨d, us, vs, hd, hforms, haround, hvs, hts⟩, htop⟩ := holds_nil.readAll hread
    rw [htop hfocus] at haround
    rw [hfocus, Focus.Holds] at hvs
    cases haround
    refine ⟨d, hd, ?_, hforms.symm⟩
    simpa [hvs] using hts.symm
  · rintro ⟨d, hd, rfl, rfl⟩
    exact ⟨_, Derivation.readAll_tokens hd {} rfl rfl, rfl, rfl⟩

end FormState

/-! ### Parsing -/

/-- A text has the tree of a derivation of its tokens, and no other. -/
theorem parse_eq_ok_iff_derivation {s : Bytes} {p : Program} :
    parse s = .ok p ↔ ∃ ts, tokenize s = (ts, none) ∧
      ∃ d : Derivation, d.Valid ∧ d.tokens = ts ∧ d.program = p := by
  rw [parse_eq_ok_iff_readAll]
  exact exists_congr fun _ => and_congr_right fun _ => FormState.readAll_eq_top_iff

/-- A text is parsed exactly if its tokens can be derived from the grammar. The derivation is then
the only one, and the program is its tree: the tokens that are no parentheses stand for its nodes in
pre-order. -/
theorem parse_succeeds_iff_derivable (s : Bytes) :
    ((∃ p, parse s = .ok p) ↔
      ∃ ts, tokenize s = (ts, none) ∧ ∃ d : Derivation, d.Valid ∧ d.tokens = ts) ∧
    ∀ p, parse s = .ok p → ∃ ts, tokenize s = (ts, none) ∧
      ∃ d : Derivation, d.Valid ∧ d.tokens = ts ∧ (∀ e : Derivation, e.Valid → e.tokens = ts → e = d) ∧
        d.program = p ∧ Reflects ts (preorderAll p) := by
  refine ⟨⟨?_, ?_⟩, ?_⟩
  · rintro ⟨p, hp⟩
    obtain ⟨ts, hts, d, hd, htokens, -⟩ := parse_eq_ok_iff_derivation.mp hp
    exact ⟨ts, hts, d, hd, htokens⟩
  · rintro ⟨ts, hts, d, hd, htokens⟩
    exact ⟨d.program, parse_eq_ok_iff_derivation.mpr ⟨ts, hts, d, hd, htokens, rfl⟩⟩
  · intro p hp
    obtain ⟨ts, hts, d, hd, rfl, rfl⟩ := parse_eq_ok_iff_derivation.mp hp
    refine ⟨d.tokens, hts, d, hd, rfl, ?_, rfl, Derivation.reflects_tokens hd⟩
    intro e he htokens
    exact Derivation.unique he hd htokens

/-- Two minus signs before operands, inside a form whose head is one. -/
theorem parse_succeeds_iff_derivable_signs :
    ∃ p, parse (utf8 "(stdout (- - 5 - 2))") = .ok p ∧
      ∃ ts, tokenize (utf8 "(stdout (- - 5 - 2))") = (ts, none) ∧
        ∃ d : Derivation, d.Valid ∧ d.tokens = ts ∧
          (∀ e : Derivation, e.Valid → e.tokens = ts → e = d) ∧
          d.program = p ∧ Reflects ts (preorderAll p) := by
  have hparsed : (parse (utf8 "(stdout (- - 5 - 2))")).toOption.isSome = true := by decide +kernel
  rcases hp : parse (utf8 "(stdout (- - 5 - 2))") with _ | p
  · rw [hp] at hparsed
    cases hparsed
  · exact ⟨p, rfl, (parse_succeeds_iff_derivable _).2 p hp⟩

end PrefixForth
