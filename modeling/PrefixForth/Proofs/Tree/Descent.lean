import PrefixForth.Proofs.Token.Lookahead

/-!
# Reading forms by recursive descent

A parser takes one token after the other, and what it has read stands in open forms. Forms can as well be
read by procedures that call each other: a form calls the procedure for its parts, which calls the one for
operands, which calls the one for forms again. They keep a stack of open parentheses: one is pushed where
a form or a declaration is opened, and popped where it is closed. Nothing in the text of these procedures
says that they end: they look at tokens without taking them, loops go on until a parenthesis comes, and the
end of the text is looked at again and again.

A procedure is data here, made of what it does one after the other (`Procedure`), and `Procedure.run` does
it. To run is a partial function, with the result `none` where a call goes on forever, and that procedures
end is a theorem. As a procedure is data, its run has points that can be spoken of (`Asks`).

* `Part.read` reads one node: a form, the parts of a form, or an operand; `binding` reads a declaration.
* `Loop.read` reads one node after the other, in rounds: `Loop.round` is one round of a loop.

What is still to come from a parser are its *pending* tokens. Every procedure ends, and one that succeeds
has taken at least as many tokens as the nodes that it returns: see `form_ends`, `operand_ends`,
`binding_ends`, `round_ends` and `loop_ends`. All recursions and loops are measured by the number of
pending tokens. An operand may be a form of the same tokens, so operands and forms are not smaller than
each other; what is smaller is an operand inside of a form. What a procedure leaves is an end of the
pending tokens, and it has asked for all the others (`asksForAll_of_run`).
-/

namespace PrefixForth

namespace Descent

/-! ### Procedures -/

/-- What is read as one node. -/
inductive Part where
  /-- A form. -/
  | form
  /-- The parts of a form with this head, up to its closing parenthesis. -/
  | parts (head : Token)
  /-- An operand: a form, a literal, an identifier, or a minus sign and an operand. -/
  | operand

/-- What is read one node after the other. -/
inductive Loop where
  /-- The forms of the top level. -/
  | forms
  /-- Operands until there are so many nodes. -/
  | operandsTo (n : Nat)
  /-- Operands up to the end of the form, after a minus sign or in a `while`. -/
  | operands
  /-- The declarations of a `let`. -/
  | bindings

/-- How a round of a loop ends. -/
inductive Round where
  /-- There is another round, with these nodes in hand. -/
  | again (done : List Node)
  /-- The loop is left with these nodes. -/
  | leave (done : List Node)

/-- A procedure on a parser. The parts and loops that it calls are named in it, not contained. -/
inductive Procedure : Type → Type 1 where
  /-- Has a result. -/
  | result {α : Type} (a : α) : Procedure α
  /-- Does one thing and, with the result of it, another. -/
  | seq {α β : Type} (m : Procedure α) (f : α → Procedure β) : Procedure β
  /-- Takes the next token; past the last one, the end of the text. -/
  | take : Procedure Token
  /-- Takes the next token and does not mind an error. -/
  | takeAnyway : Procedure Token
  /-- Looks at the next token. -/
  | look : Procedure Token
  /-- Notes an open parenthesis. -/
  | push (q : Position) : Procedure Unit
  /-- Forgets the last open parenthesis. -/
  | pop : Procedure Unit
  /-- Gives up. -/
  | fail {α : Type} (fault : ParsingFault) (q : Position) : Procedure α
  /-- Gives up where a parenthesis is missing. -/
  | mismatched {α : Type} (found : Token) : Procedure α
  /-- Reads a node. -/
  | part (x : Part) : Procedure Node
  /-- Reads nodes after those in hand. -/
  | loop (x : Loop) (done : List Node) : Procedure (List Node)

instance : Monad Procedure where
  pure := .result
  bind := .seq

open Procedure (take takeAnyway look push pop fail mismatched)

variable {α β : Type}

/-- Reads a node. -/
def Part.read (x : Part) : Procedure Node :=
  .part x

/-- Reads nodes after those in hand, round by round, until the loop is left. -/
def Loop.read (x : Loop) (done : List Node) : Procedure (List Node) :=
  .loop x done

/-- The fault that a parenthesis is missing where a token stands: it names the last open one. -/
def mismatch (found : Token) : List Position → ParsingFault
  | q :: _ => .notClosed q found
  | [] => .notOpened found

/-- The token ends the operands of a form: a closing parenthesis, or the end of the text. -/
def endsOperands (t : Token) : Bool :=
  t.kind = .closeParen || t.kind = .endOfInput

/-! ### The procedures that read forms -/

/-- Takes the parenthesis that closes the innermost form. -/
def close : Procedure Unit := do
  let t ← take
  if t.kind = .closeParen then pop else mismatched t

/-- Reads a declaration `(identifier type)`. -/
def binding : Procedure Node := do
  let paren ← takeAnyway
  push paren.position
  let name ← take
  if name.kind = .identifier then
    let type ← take
    if type.kind = .typeKeyword then
      close
      pure (.mk paren [.leaf name, .leaf type])
    else
      fail (.badBindingType name.text type) type.position
  else
    fail (.badBindingName name) name.position

/-- The node of a minus sign with the given operands: it is a unary or a binary operator. -/
def minus (head : Token) (args : List Node) : Procedure Node :=
  match args with
  | [_] => pure (.mk { head with kind := .unaryOperator } args)
  | [_, _] => pure (.mk { head with kind := .binaryOperator } args)
  | _ => fail (.minusOperands args.length) head.position

/-- How a node is read. -/
def Part.body : Part → Procedure Node
  | .form => do
    let paren ← take
    if paren.kind = .openParen then
      push paren.position
      let head ← take
      let n ← (Part.parts head).read
      close
      pure n
    else
      fail (.notForm paren) paren.position
  | .parts head =>
    match head.kind with
    | .assignment => do
      let target ← take
      if target.kind = .identifier then
        let args ← (Loop.operandsTo 2).read [.leaf target]
        pure (.mk head args)
      else
        fail (.badTarget target) target.position
    | .binaryOperator => do
      let args ← (Loop.operandsTo 2).read []
      pure (.mk head args)
    | .unaryOperator => do
      let args ← (Loop.operandsTo 1).read []
      pure (.mk head args)
    | .minus => do
      let args ← Loop.operands.read []
      minus head args
    | .statement =>
      match Statement.ofKeyword? head.text with
      | some .declare => do
        let bs ← Loop.bindings.read []
        if bs.isEmpty then fail .noBindings head.position else pure (.mk head bs)
      | some .loop => do
        let args ← (Loop.operandsTo 2).read []
        let args ← Loop.operands.read args
        pure (.mk head args)
      | some .choose => do
        let args ← (Loop.operandsTo 2).read []
        let t ← look
        if endsOperands t then
          pure (.mk head args)
        else
          let args ← (Loop.operandsTo 3).read args
          pure (.mk head args)
      | some .print => do
        let args ← (Loop.operandsTo 1).read []
        pure (.mk head args)
      | none => fail (.unknownStatement head.text) head.position
    | .endOfInput => mismatched head
    | .closeParen => fail .emptyForm head.position
    | _ => fail (.badHead head) head.position
  | .operand => do
    let t ← look
    if t.kind = .openParen then
      Part.form.read
    else if t.kind.isOperand then
      let _ ← take
      pure (.leaf t)
    else
      match t.kind with
      | .minus => do
        let _ ← take
        let n ← Part.operand.read
        pure (.mk { t with kind := .unaryOperator } [n])
      | .endOfInput => mismatched t
      | .closeParen => fail .missingOperand t.position
      | _ => do
        let _ ← take
        fail (.badOperand t) t.position

/-- One round of a loop, with the nodes that are in hand: it reads one more, or leaves the loop. -/
def Loop.round (loop : Loop) (done : List Node) : Procedure Round :=
  match loop with
  | .forms => do
    let t ← look
    if t.kind = .endOfInput then
      pure (.leave done)
    else if t.kind = .closeParen then
      mismatched t
    else if t.kind = .openParen then
      let n ← Part.form.read
      pure (.again (done ++ [n]))
    else
      let _ ← take
      fail (.notTopLevel t) t.position
  | .operandsTo n =>
    if done.length < n then do
      let m ← Part.operand.read
      pure (.again (done ++ [m]))
    else
      pure (.leave done)
  | .operands => do
    let t ← look
    if endsOperands t then
      pure (.leave done)
    else
      let n ← Part.operand.read
      pure (.again (done ++ [n]))
  | .bindings => do
    let t ← look
    if endsOperands t then
      pure (.leave done)
    else if t.kind = .openParen then
      let b ← binding
      pure (.again (done ++ [b]))
    else
      let _ ← take
      fail (.badBinding t) t.position

/-- What a loop does after a round. -/
def Loop.goOn (x : Loop) : Round → Procedure (List Node)
  | .again done => x.read done
  | .leave done => pure done

/-! ### Running -/

/-- What a procedure does: it has a result or a fault and leaves the parser in another state, or it
does not end. -/
def Procedure.run {α : Type} (m : Procedure α) (p : Parser) : Option (Except Fault α × Parser) :=
  match m with
  | .result a => some (.ok a, p)
  | .seq m f => do
    match ← m |>.run p with
    | (.ok a, p') => f a |>.run p'
    | (.error e, p') => some (.error e, p')
  | .take =>
    match p.lexer.next with
    | (.failed e, l) => some (.error (.lexical e), { p with lexer := l })
    | (reading, l) => some (.ok (l.tokenOf reading), { p with lexer := l })
  | .takeAnyway =>
    some (.ok (p.lexer.next.2.tokenOf p.lexer.next.1), { p with lexer := p.lexer.next.2 })
  | .look =>
    match p.lexer.peek with
    | (.failed e, l) => some (.error (.lexical e), { p with lexer := l })
    | (reading, l) => some (.ok (l.tokenOf reading), { p with lexer := l })
  | .push q => some (.ok (), { p with opened := q :: p.opened })
  | .pop => some (.ok (), { p with opened := p.opened.tail })
  | .fail fault q => some (.error (.parsing fault q), p)
  | .mismatched found => some (.error (.parsing (mismatch found p.opened) found.position), p)
  | .part x => x.body |>.run p
  | .loop x done => x.round done >>= x.goOn |>.run p
partial_fixpoint

/-- The procedure, called with the parser `p`, comes to a point at which it asks for a token, to take it or
to look at it, and the parser is `q` there. -/
inductive Asks : {α : Type} → Procedure α → Parser → Parser → Prop
  | take (p : Parser) : Asks take p p
  | takeAnyway (p : Parser) : Asks takeAnyway p p
  | look (p : Parser) : Asks look p p
  /-- The point is in the first thing that is done, -/
  | first {α β : Type} {m : Procedure α} {f : α → Procedure β} {p q : Parser} (asks : Asks m p q) :
      Asks (.seq m f) p q
  /-- or in the second, after the first has ended. -/
  | second {α β : Type} {m : Procedure α} {f : α → Procedure β} {p p' q : Parser} {a : α}
      (ended : m.run p = some (.ok a, p')) (asks : Asks (f a) p' q) : Asks (.seq m f) p q
  | part {x : Part} {p q : Parser} (asks : Asks x.body p q) : Asks (.part x) p q
  | loop {x : Loop} {done : List Node} {p q : Parser} (asks : Asks (x.round done >>= x.goOn) p q) :
      Asks (.loop x done) p q

/-- Where a procedure asks for a token, by what it is. -/
theorem Asks.inv {m : Procedure α} {p q : Parser} (h : Asks m p q) :
    match m with
    | .take | .takeAnyway | .look => q = p
    | .seq m f => Asks m p q ∨ ∃ a p', m.run p = some (.ok a, p') ∧ Asks (f a) p' q
    | .part x => Asks x.body p q
    | .loop x done => Asks (x.round done >>= x.goOn) p q
    | _ => False := by
  cases h with
  | take | takeAnyway | look => rfl
  | first asks => exact .inl asks
  | second ended asks => exact .inr ⟨_, _, ended, asks⟩
  | part asks | loop asks => exact asks

namespace Procedure

/-- What is done after a procedure has ended. -/
def andThen (f : α → Procedure β) : Except Fault α × Parser → Option (Except Fault β × Parser)
  | (.ok a, p) => (f a).run p
  | (.error e, p) => some (.error e, p)

variable (p : Parser)

/-- A result is had without the parser. -/
theorem run_pure (a : α) : (pure a : Procedure α).run p = some (.ok a, p) := by
  have hresult : (pure a : Procedure α) = .result a := rfl
  rw [hresult, run]

/-- The second procedure is run where the first one succeeds, on the parser that it leaves. -/
theorem run_bind (m : Procedure α) (f : α → Procedure β) :
    (m >>= f).run p = (m.run p).bind (andThen f) := by
  have hseq : (m >>= f) = .seq m f := rfl
  rw [hseq, run]
  rcases m.run p with _ | ⟨_ | a, p'⟩ <;> rfl

/-- The stack grows by one position, and no token is touched. -/
theorem run_push (q : Position) : (push q).run p = some (.ok (), { p with opened := q :: p.opened }) := by
  rw [run]

theorem run_pop : pop.run p = some (.ok (), { p with opened := p.opened.tail }) := by
  rw [run]

theorem run_fail (fault : ParsingFault) (q : Position) :
    (fail fault q : Procedure α).run p = some (.error (.parsing fault q), p) := by
  rw [run]

/-- The fault names the position on top of the stack. -/
theorem run_mismatched (found : Token) : (mismatched found : Procedure α).run p =
    some (.error (.parsing (mismatch found p.opened) found.position), p) := by
  rw [run]

/-- Reading a part is running its body. -/
theorem run_part (x : Part) : x.read.run p = x.body.run p := by
  rw [Part.read, run]

/-- Running a loop is running one round and what is done after it. -/
theorem run_loop (x : Loop) (done : List Node) :
    (x.read done).run p = (x.round done >>= x.goOn).run p := by
  rw [Loop.read, run]

end Procedure

end Descent

/-! ### Pending tokens -/

namespace Parser

/-- The tokens still to come, one that was looked at included. -/
def pending (p : Parser) : List Token :=
  p.lexer.stock.tokens

/-- The number of tokens still to come. -/
def left (p : Parser) : Nat :=
  p.pending.length

/-- The next token, or the end of the text, or the error that is met there. -/
def front (p : Parser) : Except Fault Token :=
  match p.lexer.stock.front with
  | (_, some e) => .error (.lexical e)
  | (t, none) => .ok t

/-- The parser after the next token is taken. -/
def taken (p : Parser) : Parser :=
  { p with lexer := p.lexer.next.2 }

/-- The parser after the next token is looked at. -/
def looked (p : Parser) : Parser :=
  { p with lexer := p.lexer.peek.2 }

variable {p : Parser} {t : Token}

/-- Taking leaves all tokens to come but the first. -/
theorem pending_taken (p : Parser) : p.taken.pending = p.pending.tail := by
  have hstock := p.lexer.stock_call .next
  rw [pending, taken, pending, ← List.drop_one]
  exact congrArg Stock.tokens hstock

private theorem stock_looked (p : Parser) : p.looked.lexer.stock = p.lexer.stock :=
  p.lexer.stock_call .peek

/-- Looking at a token leaves all tokens to come. -/
theorem pending_looked (p : Parser) : p.looked.pending = p.pending :=
  congrArg Stock.tokens p.stock_looked

theorem front_looked (p : Parser) : p.looked.front = p.front := by
  rw [front, stock_looked, front]

private theorem left_looked (p : Parser) : p.looked.left = p.left := by
  rw [left, pending_looked, left]

/-- Looking twice is looking once. -/
theorem looked_looked (p : Parser) : p.looked.looked = p.looked := by
  have hcall := p.lexer.call_peek .peek
  simp only [Lexer.call] at hcall
  simp only [looked, hcall]

/-- The token that is taken is the same, looked at before or not. -/
theorem taken_looked (p : Parser) : p.looked.taken = p.taken := by
  have hcall := p.lexer.call_peek .next
  simp only [Lexer.call] at hcall
  simp only [looked, taken, hcall]

private theorem left_taken_le (p : Parser) : p.taken.left ≤ p.left := by
  rw [left, pending_taken, List.length_tail]
  exact Nat.sub_le _ _

/-- A token that comes next and is not the end of the text is the first of those to come. -/
theorem pending_of_front (h : p.front = .ok t) (ht : t.kind ≠ .endOfInput) :
    p.pending = t :: p.taken.pending := by
  rw [pending_taken]
  rcases hp : p.pending with _ | ⟨t', rest⟩
  all_goals
    rw [pending] at hp
    simp only [front, Stock.front, hp] at h
  · split at h
    · cases h
    · rename_i heq
      obtain ⟨rfl, -⟩ := Prod.mk.inj heq
      rw [← Except.ok.inj h] at ht
      exact absurd rfl ht
  · rw [Except.ok.inj h]
    rfl

/-- Taking a token that is not the end of the text leaves one token less. -/
theorem left_taken (h : p.front = .ok t) (ht : t.kind ≠ .endOfInput) :
    p.taken.left + 1 = p.left := by
  rw [left, left, pending_of_front h ht, List.length_cons]

end Parser

private theorem Node.size_mk (t : Token) (cs : List Node) :
    (Node.mk t cs).size = 1 + Node.sizeAll cs := by
  rw [Node.size]

private theorem Node.sizeAll_append (cs ds : List Node) :
    Node.sizeAll (cs ++ ds) = Node.sizeAll cs + Node.sizeAll ds := by
  induction cs with
  | nil => simp [Node.sizeAll]
  | cons c cs ih => simp [Node.sizeAll, ih, Nat.add_assoc]

private theorem Node.sizeAll_singleton (n : Node) : Node.sizeAll [n] = n.size := by
  simp [Node.sizeAll]

namespace Descent

open Procedure

/-! ### Procedures that end -/

section Ends

variable {α β : Type} {m : Procedure α} {f : α → Procedure β} {p : Parser} {Q Q' : α → Parser → Prop}
  {R : β → Parser → Prop}

/-- The procedure ends, and its result, if it has one, is as `Q` says. -/
def Ends (m : Procedure α) (p : Parser) (Q : α → Parser → Prop) : Prop :=
  ∃ r p', m.run p = some (r, p') ∧ ∀ a, r = .ok a → Q a p'

theorem Ends.pure {a : α} (h : Q a p) : Ends (pure a) p Q :=
  ⟨.ok a, p, run_pure p a, fun _ ha => Except.ok.inj ha ▸ h⟩

/-- Two procedures end, one after the other, if the second ends after every result of the first. -/
theorem Ends.bind (h : Ends m p Q) (hf : ∀ a p', Q a p' → Ends (f a) p' R) :
    Ends (m >>= f) p R := by
  obtain ⟨r, p', hrun, hQ⟩ := h
  cases r with
  | error e => exact ⟨.error e, p', by rw [run_bind, hrun]; rfl, nofun⟩
  | ok a =>
    obtain ⟨r', p'', hrun', hR⟩ := hf a p' (hQ a rfl)
    exact ⟨r', p'', by rw [run_bind, hrun]; exact hrun', hR⟩

/-- A weaker condition holds at the end as well. -/
theorem Ends.mono (h : Ends m p Q) (hQ : ∀ a p', Q a p' → Q' a p') : Ends m p Q' := by
  obtain ⟨r, p', hrun, hresult⟩ := h
  exact ⟨r, p', hrun, fun a ha => hQ a p' (hresult a ha)⟩

/-- What holds of the result of a procedure that ends, holds of the result that it has. -/
theorem Ends.of_run (h : Ends m p Q) {a : α} {p' : Parser} (hrun : m.run p = some (.ok a, p')) :
    Q a p' := by
  obtain ⟨r, p'', hrun', hQ⟩ := h
  obtain ⟨rfl, rfl⟩ := Prod.mk.inj (Option.some.inj (hrun'.symm.trans hrun))
  exact hQ a rfl

private theorem ends_fail (e : ParsingFault) (q : Position) : Ends (fail e q) p Q :=
  ⟨_, p, run_fail p e q, nofun⟩

private theorem ends_mismatched (t : Token) : Ends (mismatched t) p Q :=
  ⟨_, p, run_mismatched p t, nofun⟩

/-- A part ends as the procedure does that reads it, -/
theorem Ends.part {x : Part} {Q : Node → Parser → Prop} (h : Ends x.body p Q) : Ends x.read p Q := by
  rw [Ends, run_part]
  exact h

/-- and a loop as a round of it and what is done after the round. -/
theorem Ends.loop {x : Loop} {done : List Node} {Q : List Node → Parser → Prop}
    (h : Ends (x.round done >>= x.goOn) p Q) : Ends (x.read done) p Q := by
  rw [Ends, run_loop]
  exact h

end Ends

section Primitives

variable (p : Parser)

/-- What is taken is the front, be it a token or an error. -/
theorem run_take : take.run p = some (p.front, p.taken) := by
  have hanswer := p.lexer.answer_eq .next
  simp only [Lexer.answer, Lexer.call] at hanswer
  rw [run, Parser.front, ← hanswer, Parser.taken]
  rcases p.lexer.next with ⟨_ | _ | _, l⟩ <;> rfl

private theorem run_takeAnyway : takeAnyway.run p =
    some (.ok (p.lexer.next.2.tokenOf p.lexer.next.1), p.taken) := by
  rw [run, Parser.taken]

/-- Where no error comes, it does not matter that errors are not minded. -/
theorem run_takeAnyway_of {p : Parser} {t : Token} (h : p.front = .ok t) :
    takeAnyway.run p = some (.ok t, p.taken) := by
  have hanswer := p.lexer.answer_eq .next
  simp only [Lexer.answer, Lexer.call] at hanswer
  rw [Parser.front, ← hanswer] at h
  split at h
  · cases h
  · rename_i heq
    rw [← Except.ok.inj h, ← (Prod.mk.inj heq).1, run_takeAnyway]

/-- What is looked at is the front, be it a token or an error. -/
theorem run_look : look.run p = some (p.front, p.looked) := by
  have hanswer := p.lexer.answer_eq .peek
  simp only [Lexer.answer, Lexer.call] at hanswer
  rw [run, Parser.front, ← hanswer, Parser.looked]
  rcases p.lexer.peek with ⟨_ | _ | _, l⟩ <;> rfl

/-- Taking leaves one token less, but at the end of the text, where nothing is left. -/
theorem ends_take :
    Ends take p fun t p' => p.front = .ok t ∧ p'.left ≤ p.left ∧
      (t.kind ≠ .endOfInput → p'.left + 1 = p.left) :=
  ⟨_, _, run_take p, fun _ ht => ⟨ht, p.left_taken_le, Parser.left_taken ht⟩⟩

/-- The token that was looked at is the one that is taken. -/
theorem ends_take_of {p : Parser} {t : Token} (h : p.front = .ok t) (ht : t.kind ≠ .endOfInput) :
    Ends take p fun _ p' => p'.left + 1 = p.left :=
  (ends_take p).mono fun _ _ ht' => ht'.2.2 (Except.ok.inj (h.symm.trans ht'.1) ▸ ht)

/-- Taking a token without minding errors ends as well. -/
private theorem ends_takeAnyway : Ends takeAnyway p fun _ p' => p'.left ≤ p.left :=
  ⟨_, p.taken, run_takeAnyway p, fun _ _ => p.left_taken_le⟩

/-- Looking leaves as many tokens as before, and the one that was seen comes next. -/
theorem ends_look : Ends look p fun t p' => p'.front = .ok t ∧ p'.left = p.left :=
  ⟨_, _, run_look p, fun _ ht => ⟨by rw [Parser.front_looked, ht], p.left_looked⟩⟩

theorem ends_push (q : Position) : Ends (push q) p fun _ p' => p'.left = p.left :=
  ⟨_, _, run_push p q, fun _ _ => rfl⟩

private theorem ends_pop : Ends pop p fun _ p' => p'.left = p.left :=
  ⟨_, _, run_pop p, fun _ _ => rfl⟩

/-- Closing a form takes its parenthesis. -/
private theorem close_ends : Ends close p fun _ p' => p'.left + 1 = p.left := by
  refine (ends_take p).bind fun t p' ht => ?_
  split
  · rename_i hk
    refine (ends_pop p').mono fun _ p'' hp'' => ?_
    rw [hp'', ht.2.2 (by simp [hk])]
  · exact ends_mismatched t

/-- The node is paid for: at least as many tokens are taken as it has nodes. -/
def Paid (p : Parser) (n : Node) (p' : Parser) : Prop :=
  n.size + p'.left ≤ p.left

/-- The nodes that are read beyond those in hand are paid for. -/
def PaidAll (done : List Node) (p : Parser) (ns : List Node) (p' : Parser) : Prop :=
  Node.sizeAll ns + p'.left ≤ Node.sizeAll done + p.left

/-- The parts of a form are paid for, but for its head, which is not the end of the text. -/
def PaidParts (head : Token) (p : Parser) (n : Node) (p' : Parser) : Prop :=
  n.size + p'.left ≤ 1 + p.left ∧ head.kind ≠ .endOfInput

/-- A round that is followed by another one takes a token. -/
def PaidRound (done : List Node) (p : Parser) : Round → Parser → Prop
  | .again ns, p' => PaidAll done p ns p' ∧ p'.left < p.left
  | .leave ns, p' => PaidAll done p ns p'

variable {p}

/-- A node that is paid for has cost a token. -/
theorem Paid.left_lt {n : Node} {p' : Parser} (h : Paid p n p') : p'.left < p.left := by
  obtain ⟨t, cs⟩ := n
  rw [Paid, Node.size_mk] at h
  omega

/-- A round that reads one more node, and that has paid for it, can be followed by another. -/
theorem Paid.again {n : Node} {p' p'' : Parser} (h : Paid p' n p'') (hp : p'.left = p.left)
    (done : List Node) : PaidRound done p (.again (done ++ [n])) p'' := by
  have hlt := h.left_lt
  rw [Paid] at h
  rw [PaidRound, PaidAll, Node.sizeAll_append, Node.sizeAll_singleton]
  omega

private theorem PaidAll.of_left {ns : List Node} {p' : Parser} (h : p'.left = p.left) :
    PaidAll ns p ns p' := by
  rw [PaidAll, h]

/-- A loop does not give tokens back. -/
theorem PaidAll.left_le {ns : List Node} {p' : Parser} (h : PaidAll [] p ns p') :
    p'.left ≤ p.left := by
  rw [PaidAll, Node.sizeAll] at h
  omega

/-- What two loops read, one after the other, is paid for if each pays for its part. -/
theorem PaidAll.trans {ls ms ns : List Node} {p' p'' : Parser} (h : PaidAll ls p ms p')
    (h' : PaidAll ms p' ns p'') : PaidAll ls p ns p'' := by
  rw [PaidAll] at h h' ⊢
  omega

/-- Operands that are paid for are parts of a form that are. -/
theorem PaidAll.parts {ns : List Node} {p' : Parser} (h : PaidAll [] p ns p') {head : Token}
    (hhead : head.kind ≠ .endOfInput) : PaidParts head p (.mk head ns) p' := by
  refine ⟨?_, hhead⟩
  rw [PaidAll, Node.sizeAll] at h
  rw [Node.size_mk]
  omega

/-- A minus sign is read again as an operator, at no cost. -/
private theorem minus_ends {head : Token} {ns : List Node} {p' : Parser}
    (h : PaidParts head p (.mk head ns) p') : Ends (minus head ns) p' (PaidParts head p) := by
  rw [PaidParts, Node.size_mk] at h
  unfold minus
  split
  · refine .pure ?_
    rw [PaidParts, Node.size_mk]
    exact h
  · refine .pure ?_
    rw [PaidParts, Node.size_mk]
    exact h
  · exact ends_fail _ _

end Primitives

/-- A loop ends whose rounds take tokens. -/
theorem loop_ends_of {loop : Loop} {k : Nat}
    (hround : ∀ done p, p.left < k → Ends (loop.round done) p (PaidRound done p))
    (done : List Node) (p : Parser) (hp : p.left < k) :
    Ends (loop.read done) p (PaidAll done p) := by
  induction hleft : p.left using Nat.strongRecOn generalizing done p with
  | ind n ih =>
    refine .loop ((hround done p hp).bind fun r p' hr => ?_)
    cases r with
    | leave ns => exact .pure hr
    | again ns =>
      obtain ⟨hpaid, hlt⟩ := hr
      refine (ih p'.left (hleft ▸ hlt) ns p' (hlt.trans hp) rfl).mono fun ms p'' hms => ?_
      exact hpaid.trans hms

/-! ### The procedures end -/

/-- A declaration ends: nothing in it is repeated. -/
theorem binding_ends (p : Parser) : Ends binding p (Paid p) := by
  refine (ends_takeAnyway p).bind fun paren p₁ h₁ => ?_
  refine (ends_push p₁ paren.position).bind fun _ p₂ h₂ => ?_
  refine (ends_take p₂).bind fun name p₃ h₃ => ?_
  split
  · rename_i hname
    have hname' := h₃.2.2 (by simp [hname])
    refine (ends_take p₃).bind fun type p₄ h₄ => ?_
    split
    · rename_i htype
      have htype' := h₄.2.2 (by simp [htype])
      refine (close_ends p₄).bind fun _ p₅ h₅ => .pure ?_
      rw [Paid, Node.size_mk]
      simp only [Node.leaf, Node.sizeAll, Node.size_mk]
      omega
    · exact ends_fail _ _
  · exact ends_fail _ _

/-- A round of a declaration reads one name and its type. -/
private theorem bindingsRound_ends (done : List Node) (p : Parser) :
    Ends (Loop.bindings.round done) p (PaidRound done p) := by
  rw [Loop.round]
  refine (ends_look p).bind fun t p₁ h₁ => ?_
  split
  · exact .pure (PaidAll.of_left h₁.2)
  split
  · exact (binding_ends p₁).bind fun b p₂ h₂ => .pure (h₂.again h₁.2 done)
  · exact (ends_take p₁).bind fun _ p₂ _ => ends_fail _ _

section Operands

variable {k : Nat} (hop : ∀ p : Parser, p.left < k → Ends Part.operand.read p (Paid p))

include hop

private theorem operandsToRound_ends_of (n : Nat) (done : List Node) (p : Parser)
    (hp : p.left < k) :
    Ends ((Loop.operandsTo n).round done) p (PaidRound done p) := by
  rw [Loop.round]
  split
  · exact (hop p hp).bind fun m p₁ h₁ => .pure (h₁.again rfl done)
  · exact .pure (PaidAll.of_left rfl)

private theorem operandsRound_ends_of (done : List Node) (p : Parser) (hp : p.left < k) :
    Ends (Loop.operands.round done) p (PaidRound done p) := by
  rw [Loop.round]
  refine (ends_look p).bind fun t p₁ h₁ => ?_
  split
  · exact .pure (PaidAll.of_left h₁.2)
  · exact (hop p₁ (h₁.2 ▸ hp)).bind fun n p₂ h₂ => .pure (h₂.again h₁.2 done)

/-- Counted operands end, if operands do. -/
private theorem operandsTo_ends_of (n : Nat) (done : List Node) (p : Parser) (hp : p.left < k) :
    Ends ((Loop.operandsTo n).read done) p (PaidAll done p) :=
  loop_ends_of (operandsToRound_ends_of hop n) done p hp

/-- Operands up to the end of a form end, if operands do. -/
private theorem operands_ends_of (done : List Node) (p : Parser) (hp : p.left < k) :
    Ends (Loop.operands.read done) p (PaidAll done p) :=
  loop_ends_of (operandsRound_ends_of hop) done p hp

/-- The parts of a form are paid for, but for its head, which is not the end of the text. -/
theorem parts_ends_of (head : Token) (p : Parser) (hp : p.left < k) :
    Ends (Part.parts head).read p (PaidParts head p) := by
  refine .part ?_
  rw [Part.body]
  split
  · rename_i hkind
    refine (ends_take p).bind fun target p₁ h₁ => ?_
    split
    · rename_i htarget
      -- the target has paid for its node
      have htarget' := h₁.2.2 (by simp [htarget])
      refine (operandsTo_ends_of hop 2 [.leaf target] p₁ (by omega)).bind fun ns p₂ h₂ => .pure ?_
      refine ⟨?_, by simp [hkind]⟩
      rw [PaidAll, Node.sizeAll_singleton, Node.leaf, Node.size_mk, Node.sizeAll] at h₂
      rw [Node.size_mk]
      omega
    · exact ends_fail _ _
  · rename_i hkind
    exact (operandsTo_ends_of hop 2 [] p hp).bind fun ns p₁ h₁ => .pure (h₁.parts (by simp [hkind]))
  · rename_i hkind
    exact (operandsTo_ends_of hop 1 [] p hp).bind fun ns p₁ h₁ => .pure (h₁.parts (by simp [hkind]))
  · rename_i hkind
    refine (operands_ends_of hop [] p hp).bind fun ns p₁ h₁ => ?_
    exact minus_ends (h₁.parts (by simp [hkind]))
  · rename_i hkind
    have hne : head.kind ≠ .endOfInput := by simp [hkind]
    split
    · refine (loop_ends_of (fun done p _ => bindingsRound_ends done p) [] p hp).bind fun ns p₁ h₁ => ?_
      split
      · exact ends_fail _ _
      · exact .pure (h₁.parts hne)
    · refine (operandsTo_ends_of hop 2 [] p hp).bind fun ns p₁ h₁ => ?_
      refine (operands_ends_of hop ns p₁ (h₁.left_le.trans_lt hp)).bind fun ms p₂ h₂ => .pure ?_
      exact (h₁.trans h₂).parts hne
    · refine (operandsTo_ends_of hop 2 [] p hp).bind fun ns p₁ h₁ => ?_
      refine (ends_look p₁).bind fun t p₂ h₂ => ?_
      have hpaid : PaidAll [] p ns p₂ := h₁.trans (PaidAll.of_left h₂.2)
      split
      · exact .pure (hpaid.parts hne)
      · refine (operandsTo_ends_of hop 3 ns p₂ (hpaid.left_le.trans_lt hp)).bind
          fun ms p₃ h₃ => .pure ?_
        exact (hpaid.trans h₃).parts hne
    · exact (operandsTo_ends_of hop 1 [] p hp).bind fun ns p₁ h₁ => .pure (h₁.parts hne)
    · exact ends_fail _ _
  · exact ends_mismatched head
  · exact ends_fail _ _
  · exact ends_fail _ _

/-- A form ends, if operands with fewer tokens left do. -/
private theorem form_ends_of (p : Parser) (hp : p.left ≤ k) : Ends Part.form.read p (Paid p) := by
  refine .part ?_
  refine (ends_take p).bind fun paren p₁ h₁ => ?_
  split
  · rename_i hparen
    have hparen' := h₁.2.2 (by simp [hparen])
    refine (ends_push p₁ paren.position).bind fun _ p₂ h₂ => ?_
    refine (ends_take p₂).bind fun head p₃ h₃ => ?_
    refine (parts_ends_of hop head p₃ (by omega)).bind fun n p₄ h₄ => ?_
    -- the parenthesis that opens the form is not needed to pay for a node
    have hhead := h₃.2.2 h₄.2
    have hpaid := h₄.1
    refine (close_ends p₄).bind fun _ p₅ h₅ => .pure ?_
    rw [Paid]
    omega
  · exact ends_fail _ _

end Operands

/-- An operand ends and is paid for, by induction on the tokens that are left. -/
theorem operand_ends (p : Parser) : Ends Part.operand.read p (Paid p) := by
  induction hleft : p.left using Nat.strongRecOn generalizing p with
  | ind k ih =>
    have hop : ∀ q : Parser, q.left < k → Ends Part.operand.read q (Paid q) :=
      fun q hq => ih q.left hq q rfl
    refine .part ?_
    refine (ends_look p).bind fun t p₁ h₁ => ?_
    have hk : p₁.left = k := h₁.2.trans hleft
    split
    · -- a form that is an operand has as many tokens left, and needs operands with fewer only
      refine (form_ends_of hop p₁ hk.le).mono fun n p₂ h₂ => ?_
      rw [Paid, ← h₁.2]
      exact h₂
    split
    · rename_i hoperand
      have hkind : t.kind ≠ .endOfInput := fun hend => by
        simp [hend, TokenKind.isOperand, TokenKind.isLiteral] at hoperand
      refine (ends_take_of h₁.1 hkind).bind fun _ p₂ h₂ => .pure ?_
      rw [Paid, Node.leaf, Node.size_mk, Node.sizeAll]
      omega
    split
    · rename_i hminus
      refine (ends_take_of h₁.1 (by simp [hminus])).bind fun _ p₂ h₂ => ?_
      refine (hop p₂ (by omega)).bind fun n p₃ h₃ => .pure ?_
      rw [Paid, Node.size_mk, Node.sizeAll_singleton]
      rw [Paid] at h₃
      omega
    · exact ends_mismatched t
    · exact ends_fail _ _
    · exact (ends_take p₁).bind fun _ p₂ _ => ends_fail _ _

/-- A form ends and is paid for. -/
theorem form_ends (p : Parser) : Ends Part.form.read p (Paid p) :=
  form_ends_of (fun q _ => operand_ends q) p le_rfl

/-- A round of any loop ends, and one that is followed by another one takes a token. -/
theorem round_ends (loop : Loop) (done : List Node) (p : Parser) :
    Ends (loop.round done) p (PaidRound done p) := by
  cases loop with
  | forms =>
    rw [Loop.round]
    refine (ends_look p).bind fun t p₁ h₁ => ?_
    split
    · exact .pure (PaidAll.of_left h₁.2)
    split
    · exact ends_mismatched t
    split
    · exact (form_ends p₁).bind fun n p₂ h₂ => .pure (h₂.again h₁.2 done)
    · exact (ends_take p₁).bind fun _ p₂ _ => ends_fail _ _
  | operandsTo n =>
    exact operandsToRound_ends_of (fun q _ => operand_ends q) n done p (Nat.lt_succ_self _)
  | operands => exact operandsRound_ends_of (fun q _ => operand_ends q) done p (Nat.lt_succ_self _)
  | bindings => exact bindingsRound_ends done p

/-- Every loop ends, and all nodes that it adds are paid for. -/
theorem loop_ends (loop : Loop) (done : List Node) (p : Parser) :
    Ends (loop.read done) p (PaidAll done p) :=
  loop_ends_of (fun done p _ => round_ends loop done p) done p (Nat.lt_succ_self _)

/-! ### Tokens that are asked for -/

section AsksForAll

variable {α β : Type} {m : Procedure α} {f : α → Procedure β} {p p' p'' : Parser}

/-- Between the two parsers, the procedure takes some of the tokens to come, and asks for each of them. -/
def AsksForAll (m : Procedure α) (p p' : Parser) : Prop :=
  p'.pending <:+ p.pending ∧
    ∀ ts, ts <:+ p.pending → p'.left < ts.length → ∃ q, Asks m p q ∧ q.pending = ts

/-- Nothing is to be asked for where nothing is taken. -/
private theorem asksForAll_of_pending (h : p'.pending = p.pending) : AsksForAll m p p' := by
  refine ⟨by rw [h], fun ts hts hlt => ?_⟩
  rw [Parser.left, h] at hlt
  exact absurd hts.length_le hlt.not_ge

/-- A token is asked for before it is taken. -/
private theorem asksForAll_taken (h : Asks m p p) : AsksForAll m p p.taken := by
  rw [AsksForAll, Parser.left, Parser.pending_taken]
  refine ⟨List.tail_suffix _, fun ts hts hlt => ⟨p, h, ?_⟩⟩
  rw [List.length_tail] at hlt
  exact (hts.eq_of_length_le (by omega)).symm

private theorem AsksForAll.mono {m' : Procedure β} (h : AsksForAll m p p')
    (hm : ∀ q, Asks m p q → Asks m' p q) : AsksForAll m' p p' := by
  refine ⟨h.1, fun ts hts hlt => ?_⟩
  obtain ⟨q, hq, hpending⟩ := h.2 ts hts hlt
  exact ⟨q, hm q hq, hpending⟩

/-- What is not taken by the first procedure is taken by the second. -/
private theorem AsksForAll.seq {a : α} (h : AsksForAll m p p') (hrun : m.run p = some (.ok a, p'))
    (h' : AsksForAll (f a) p' p'') : AsksForAll (.seq m f) p p'' := by
  refine ⟨h'.1.trans h.1, fun ts hts hlt => ?_⟩
  rcases lt_or_ge p'.left ts.length with hfirst | hsecond
  · obtain ⟨q, hq, hpending⟩ := h.2 ts hts hfirst
    exact ⟨q, .first hq, hpending⟩
  · obtain ⟨q, hq, hpending⟩ := h'.2 ts (List.suffix_of_suffix_length_le hts h.1 hsecond) hlt
    exact ⟨q, .second hrun hq, hpending⟩

/-- Every procedure asks for the tokens that it takes. -/
theorem asksForAll_of_run {r : Except Fault α} (h : m.run p = some (r, p')) : AsksForAll m p p' := by
  -- by induction on the depth of calls; a step of it is a procedure whose calls are known to ask
  refine (Procedure.run.partial_correctness
    (fun m p r => m.run p = some r ∧ AsksForAll m p r.2) ?_ m p (r, p') h).2
  intro run ih α m p r hstep
  cases m with
  | result | push | pop | fail | mismatched =>
    cases hstep
    exact ⟨by rw [Procedure.run], asksForAll_of_pending rfl⟩
  | takeAnyway =>
    cases hstep
    exact ⟨by rw [Procedure.run], asksForAll_taken (.takeAnyway p)⟩
  | take =>
    have hrun : take.run p = some r := by
      rw [Procedure.run]
      exact hstep
    refine ⟨hrun, ?_⟩
    rw [run_take] at hrun
    cases hrun
    exact asksForAll_taken (.take p)
  | look =>
    have hrun : look.run p = some r := by
      rw [Procedure.run]
      exact hstep
    refine ⟨hrun, ?_⟩
    rw [run_look] at hrun
    cases hrun
    exact asksForAll_of_pending p.pending_looked
  | seq m f =>
    obtain ⟨⟨result, p₁⟩, hm, hthen⟩ := Option.bind_eq_some_iff.mp hstep
    obtain ⟨hrun, hasks⟩ := ih m p _ hm
    cases result with
    | error e =>
      cases hthen
      exact ⟨by rw [Procedure.run, hrun]; rfl, hasks.mono fun _ => .first⟩
    | ok a =>
      obtain ⟨hrun', hasks'⟩ := ih (f a) p₁ r hthen
      exact ⟨by rw [Procedure.run, hrun]; exact hrun', hasks.seq hrun hasks'⟩
  | part x =>
    obtain ⟨hrun, hasks⟩ := ih x.body p r hstep
    exact ⟨by rw [Procedure.run, hrun], hasks.mono fun _ => .part⟩
  | loop x done =>
    obtain ⟨hrun, hasks⟩ := ih (x.round done >>= x.goOn) p r hstep
    exact ⟨by rw [Procedure.run, hrun], hasks.mono fun _ => .loop⟩

end AsksForAll

end Descent

end PrefixForth
