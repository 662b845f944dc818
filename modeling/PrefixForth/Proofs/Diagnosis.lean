import Mathlib.Data.Nat.Digits.Defs
import PrefixForth.Compile
import PrefixForth.Proofs.Token.Engine

/-!
# What is wrong, and where

Each stage of a compilation has its own reasons to fail (`Stage.reasons`). The first two also say where
a text is at fault, and there are three kinds of such places (`Blames`): a token, the place just past
the last token, where the text ends too early, and the first byte of a rest that has no token.

The lexer stops at its rest, so it blames nothing else. The parser blames the token that does not fit or
the head of an open form (`FormState.locates_of_fault`). The heads of open forms are tokens of the text
(`FormState.heads_of_step`), and so is what does not fit, unless it is the end of the text. The end has
no place before a first token has been read, but then no form is open, and it does fit
(`FormState.position_of_outcome`).

All this is said of compiling with any engine that keeps its laws (`Engine.compile`). What an engine could
add are its own errors, with a place that may be unknown, and refusals that belong to no stage; a lawful
engine has neither (`Engine.Lawful.compile_eq`, `isOwn_of_parse`).

Main statement: `faults_are_classified_and_located`.
-/

namespace PrefixForth

/-- The reasons for which a stage fails. -/
def Stage.reasons : Stage → List Reason
  | lexer => [.unrecognizedCharacter, .malformedNumeral, .unterminatedString]
  | parser => [.mismatchedParenthesis, .badForm, .operandCount]
  | semantic => [.unboundName, .readBeforeAssignment, .alreadyDeclared, .operandType, .notBoolean, .noValue]

/-- The place at which a stage may find the text at fault. -/
inductive Blames (s : Bytes) : Stage → Position → Prop
  /-- The first byte of the rest, which no token starts with. -/
  | rest {ts : List Token} {e : LexicalError} {pieces : List (Bytes × Token)} {gap rest : Bytes}
      (tokens : tokenize s = (ts, some e))
      (cut : Covers (.ofText s) ts (some e) pieces gap rest) :
      Blames s .lexer (.behind (pieceText pieces ++ gap))
  | token {t : Token} (mem : t ∈ (tokenize s).1) : Blames s .parser t.position
  /-- The place just past the last token, of a text that is made of tokens and blanks only. -/
  | ending {ts : List Token} {pieces : List (Bytes × Token)} {gap : Bytes}
      (tokens : tokenize s = (ts, none)) (cut : Covers (.ofText s) ts none pieces gap [])
      (nonempty : pieces ≠ []) : Blames s .parser (.behind (pieceText pieces))

/-! ### Reasons -/

/-- The reasons of the stages are apart, so the reason of a fault tells its stage. -/
theorem Fault.reason_mem_reasons_iff (f : Fault) (stage : Stage) :
    f.report.reason ∈ stage.reasons ↔ f.report.stage = stage := by
  cases f with
  | lexical e =>
    have hreason : e.fault.reason ∈ stage.reasons ↔ .lexer = stage := by
      cases e.fault <;> cases stage <;> simp [LexicalFault.reason, Stage.reasons]
    exact hreason
  | parsing e q =>
    have hreason : e.reason ∈ stage.reasons ↔ .parser = stage := by
      cases e <;> cases stage <;> simp [ParsingFault.reason, Stage.reasons]
    exact hreason
  | semantic e =>
    have hreason : e.reason ∈ stage.reasons ↔ .semantic = stage := by
      cases e <;> cases stage <;> simp [SemanticFault.reason, Stage.reasons]
    exact hreason

/-! ### What a parser blames -/

/-- The head of the innermost form, as far as it is known. -/
def Focus.heads : Focus → List Token
  | .top | .head _ => []
  | .target _ op | .bindings _ op _ | .bindingName _ op _ _ | .bindingType _ op _ _ _
  | .bindingEnd _ op _ _ _ _ => [op]
  | .operands o => [o.head]

namespace FormState

variable {s s' : FormState} {t : Token} {e : ParsingFault} {q : Position} {taken : Bool}

/-- The heads of the open forms, the innermost first. -/
def heads (s : FormState) : List Token :=
  s.focus.heads ++ s.around.map Operands.head

/-- The position is that of the token, or of the head of an open form. -/
def Locates (s : FormState) (t : Token) (q : Position) : Prop :=
  q = t.position ∨ ∃ head ∈ s.heads, q = head.position

private theorem locates_of_mismatch {taken' : Bool} (h : s.mismatch t taken' = .fault e q taken) :
    s.Locates t q := by
  rw [mismatch] at h
  split at h
  · cases h
    exact .inl rfl
  · cases h
    exact .inl rfl

private theorem locates_of_closeWith {n : Node} (h : s.closeWith n t = .fault e q taken) :
    s.Locates t q := by
  rw [closeWith] at h
  split at h
  · cases h
  · exact locates_of_mismatch h

/-- A fault is located at the token that does not fit, or at the head of the innermost form. -/
theorem locates_of_fault (h : s.step t = .fault e q taken) : s.Locates t q := by
  cases hfocus : s.focus with
  | top =>
    simp only [step, hfocus] at h
    split at h
    · cases h
    · cases h
    · exact locates_of_mismatch h
    · cases h
      exact .inl rfl
  | head paren =>
    simp only [step, hfocus, openHead] at h
    split at h
    case h_5 =>
      split at h
      case h_5 =>
        cases h
        exact .inl rfl
      all_goals cases h
    case h_6 => exact locates_of_mismatch h
    case h_7 | h_8 =>
      cases h
      exact .inl rfl
    all_goals cases h
  | target | bindingName | bindingType =>
    simp only [step, hfocus] at h
    split at h
    · cases h
    · cases h
      exact .inl rfl
  | operands o =>
    simp only [step, hfocus] at h
    split at h
    · split at h
      · exact locates_of_closeWith h
      · -- a minus sign has a wrong number of operands
        cases h
        exact .inr ⟨o.head, by simp [heads, hfocus, Focus.heads], rfl⟩
    · rw [openOperand] at h
      split at h
      · cases h
      · split at h
        case h_1 | h_2 => cases h
        case h_3 => exact locates_of_mismatch h
        case h_4 | h_5 =>
          cases h
          exact .inl rfl
  | bindings paren head done =>
    -- a form without declarations is blamed on its head
    have hclose : (if done.isEmpty then .fault .noBindings head.position false
        else s.closeWith (.mk head done) t) = .fault e q taken → s.Locates t q := by
      intro h
      split at h
      · cases h
        exact .inr ⟨head, by simp [heads, hfocus, Focus.heads], rfl⟩
      · exact locates_of_closeWith h
    simp only [step, hfocus] at h
    split at h
    · cases h
    · exact hclose h
    · exact hclose h
    · cases h
      exact .inl rfl
  | bindingEnd =>
    simp only [step, hfocus] at h
    split at h
    · cases h
    · exact locates_of_mismatch h

private theorem heads_complete (s : FormState) (n : Node) :
    (s.complete n).heads = s.around.map Operands.head := by
  rw [complete]
  split
  · rename_i haround
    simp [heads, Focus.heads, haround]
  · rename_i o os haround
    simp [heads, Focus.heads, haround, Operands.add]

private theorem heads_of_goesOn {f f' : Focus} (h : GoesOn t f f') : f'.heads ⊆ t :: f.heads := by
  cases h <;> simp [Focus.heads, Operands.add]

/-- The heads of the open forms are tokens that have been taken. -/
theorem heads_of_step (h : s.step t = .next s') : s'.heads ⊆ t :: s.heads := by
  have haround : s.around.map Operands.head ⊆ t :: s.heads := fun head hmem =>
    List.mem_cons_of_mem t (List.mem_append_right _ hmem)
  cases takes_of_step h with
  | next goesOn =>
    have hfocus := heads_of_goesOn goesOn
    exact List.append_subset.mpr ⟨fun head hmem => List.mem_append_left _ (hfocus hmem), haround⟩
  | @nest o focus kind =>
    have hheads : s.heads = o.head :: s.around.map Operands.head := by
      rw [heads, focus]
      rfl
    rw [hheads]
    exact List.subset_cons_self t _
  | close kind tree =>
    rw [heads_complete]
    exact haround

/-- Where a reading of tokens finds a fault: at one of them, at a form that was open before them, or at
the end of the text, but there only if some form is open. -/
theorem position_of_outcome {ending : Position} {ts : List Token} {error : Option LexicalError}
    (h : s.outcome ending ts error = .error (.parsing e q)) :
    (∃ t ∈ s.heads ++ ts, q = t.position) ∨
      q = ending ∧ error = none ∧ (ts ≠ [] ∨ s.focus ≠ .top) := by
  induction ts generalizing s with
  | nil =>
    cases error with
    | some e' => cases h
    | none =>
      rw [outcome] at h
      split at h
      · cases h
      · cases h
      · rename_i e' q' taken hstep
        cases h
        rcases locates_of_fault hstep with rfl | ⟨head, hmem, rfl⟩
        · refine .inr ⟨rfl, rfl, .inr fun hfocus => ?_⟩
          -- where no form is open the text may end
          rw [step_eq_done_iff.mpr ⟨rfl, hfocus, rfl⟩] at hstep
          cases hstep
        · exact .inl ⟨head, List.mem_append_left _ hmem, rfl⟩
  | cons t ts ih =>
    rw [outcome] at h
    split at h
    · rename_i s₁ hstep
      rcases ih h with ⟨t', hmem, rfl⟩ | ⟨rfl, hnone, -⟩
      · refine .inl ⟨t', ?_, rfl⟩
        have hheads := heads_of_step hstep
        rcases List.mem_append.mp hmem with hmem | hmem
        · rcases List.mem_cons.mp (hheads hmem) with rfl | hmem
          · simp
          · exact List.mem_append_left _ hmem
        · exact List.mem_append_right _ (List.mem_cons_of_mem t hmem)
      · exact .inr ⟨rfl, hnone, .inl (List.cons_ne_nil t ts)⟩
    · cases h
    · rename_i e' q' taken hstep
      cases h
      rcases locates_of_fault hstep with rfl | ⟨head, hmem, rfl⟩
      · exact .inl ⟨t, by simp, rfl⟩
      · exact .inl ⟨head, List.mem_append_left _ hmem, rfl⟩

/-- A reading of tokens fails with the error that ended them, or with a fault of its own. -/
theorem outcome_eq_error {ending : Position} {ts : List Token} {error : Option LexicalError} {f : Fault}
    (h : s.outcome ending ts error = .error f) :
    (∃ e, error = some e ∧ f = .lexical e) ∨ ∃ e q, f = .parsing e q := by
  induction ts generalizing s with
  | nil =>
    cases error with
    | some e =>
      cases h
      exact .inl ⟨e, rfl, rfl⟩
    | none =>
      rw [outcome] at h
      split at h
      · cases h
      · cases h
      · cases h
        exact .inr ⟨_, _, rfl⟩
  | cons t ts ih =>
    rw [outcome] at h
    split at h
    · exact ih h
    · cases h
    · cases h
      exact .inr ⟨_, _, rfl⟩

end FormState

/-! ### Places in the text -/

section Places

variable {s : Bytes} {ts : List Token} {error : Option LexicalError}
  {pieces : List (Bytes × Token)} {gap rest : Bytes}

/-- Every token of a text stands behind something, so lines and columns are counted from 1. -/
theorem Covers.exists_behind (h : Covers (.ofText s) ts error pieces gap rest) {t : Token}
    (ht : t ∈ ts) : ∃ u, t.position = .behind u := by
  rw [← h.tokens] at ht
  obtain ⟨piece, hmem, rfl⟩ := List.mem_map.mp ht
  obtain ⟨front, back, hcut⟩ := List.append_of_mem hmem
  refine ⟨pieceText front ++ piece.1, ?_⟩
  exact h.placed_behind hcut

/-- The place just past the last token stands behind all tokens with the gaps before them. -/
theorem Covers.lastEnding_eq (h : Covers (.ofText s) ts error pieces gap rest) (hne : pieces ≠ [])
    (q : Position) : lastEnding q ts = .behind (pieceText pieces) := by
  obtain ⟨front, last, rfl⟩ := List.eq_nil_or_concat pieces |>.resolve_left hne
  have hplaced := h.placed front last [] (by simp)
  have htext : pieceText (front.concat last) = pieceText front ++ last.1 ++ last.2.text := by
    simp [pieceText]
  rw [← h.tokens, htext, ← Position.afterAll_start, Position.afterAll_append]
  simp only [lastEnding, List.concat_eq_append, List.map_append, List.map_cons, List.map_nil,
    List.foldl_append, List.foldl_cons, List.foldl_nil, Token.ending, hplaced]
  rfl

private theorem Position.one_le_behind (u : Bytes) :
    1 ≤ (behind u).line ∧ 1 ≤ (behind u).column := by
  simp only [behind]
  omega

private theorem Blames.one_le {stage : Stage} {q : Position} (h : Blames s stage q) :
    1 ≤ q.line ∧ 1 ≤ q.column := by
  cases h with
  | rest tokens cut => exact Position.one_le_behind _
  | ending tokens cut nonempty => exact Position.one_le_behind _
  | token mem =>
    have hlexes : Lexes (.ofText s) (tokenize s).1 (tokenize s).2 := Lexes.of_tokens _
    obtain ⟨pieces, gap, rest, hcovers⟩ := hlexes.exists_covers
    obtain ⟨u, hu⟩ := hcovers.exists_behind mem
    rw [hu]
    exact Position.one_le_behind u

/-- A text that is not parsed is at fault at a place of the stage that says so. -/
theorem blames_of_parse {f : Fault} (h : parse s = .error f) :
    f.report.stage ≠ .semantic ∧ Blames s f.report.stage f.report.position := by
  have hlexes : Lexes (.ofText s) (tokenize s).1 (tokenize s).2 := Lexes.of_tokens _
  obtain ⟨pieces, gap, rest, hcovers⟩ := hlexes.exists_covers
  rw [parse_eq_outcome] at h
  rcases FormState.outcome_eq_error h with ⟨e, herror, rfl⟩ | ⟨e, q, rfl⟩
  · rw [herror] at hcovers
    have hblames : Blames s .lexer e.position := by
      rw [hcovers.stopped_behind rfl]
      exact .rest (Prod.ext rfl herror) hcovers
    exact ⟨by rintro ⟨⟩, hblames⟩
  · have hblames : Blames s .parser q := by
      rcases FormState.position_of_outcome h with ⟨t, hmem, rfl⟩ | ⟨rfl, hnone, hsome⟩
      · exact .token (by simpa [FormState.heads, Focus.heads] using hmem)
      · -- the end of the text is at fault only after a first token
        have hts : (tokenize s).1 ≠ [] := hsome.resolve_right (by simp)
        have hpieces : pieces ≠ [] := by
          rintro rfl
          exact hts hcovers.tokens.symm
        rw [hnone] at hcovers
        obtain rfl := hcovers.ended rfl
        rw [hcovers.lastEnding_eq hpieces]
        exact .ending (Prod.ext rfl hnone) hcovers hpieces
    exact ⟨by rintro ⟨⟩, hblames⟩

end Places

/-! ### Messages -/

/-- The decimal digits of a positive number start with one that is not zero. -/
theorem exists_toDigits_eq {k : Nat} (h : 0 < k) :
    ∃ m cs, 0 < m ∧ m < 10 ∧ Nat.toDigits 10 k = m.digitChar :: cs := by
  induction k using Nat.strong_induction_on with
  | _ k ih =>
    rcases Nat.lt_or_ge k 10 with hlt | hge
    · exact ⟨k, [], h, hlt, Nat.toDigits_of_lt_base hlt⟩
    · obtain ⟨m, cs, hpos, hm, hdigits⟩ := ih (k / 10) (by omega) (by omega)
      refine ⟨m, cs ++ [(k % 10).digitChar], hpos, hm, ?_⟩
      rw [Nat.toDigits_of_base_le (by decide) hge, hdigits, List.cons_append]

private theorem exists_head?_decimal {n : Int} (h : 0 < n) :
    ∃ b, (decimal n).head? = some b ∧ b ≠ 48 := by
  obtain ⟨k, rfl⟩ := Int.eq_ofNat_of_zero_le h.le
  obtain ⟨m, cs, hpos, hm, hdigits⟩ := exists_toDigits_eq (Int.ofNat_lt.mp h)
  have hbytes : decimal k = [m.digitChar].utf8Encode.data.toList ++ cs.utf8Encode.data.toList := by
    have htext : decimal k = (String.ofList (Nat.toDigits 10 k)).toByteArray.data.toList := rfl
    rw [htext, hdigits, String.toByteArray_ofList, List.utf8Encode_cons, ByteArray.data_append,
      Array.toList_append]
  have hdigit : ∀ m < 10, 0 < m →
      ([m.digitChar].utf8Encode.data.toList.head?.any fun b => decide (b ≠ 48)) = true := by decide
  have hfirst := hdigit m hm hpos
  obtain ⟨b, hb, hne⟩ := Option.any_eq_true _ _ |>.mp hfirst
  exact ⟨b, by rw [hbytes, List.head?_append, hb]; rfl, of_decide_eq_true hne⟩

/-- A text does not start with another one that differs from it in the first bytes. -/
theorem not_prefix_append_of_take_ne {u v w : Bytes} (n : Nat) (h : u.take n ≠ v.take n)
    (hu : n ≤ u.length) (hv : n ≤ v.length) : ¬u <+: v ++ w := by
  rintro ⟨x, hx⟩
  have htake := congrArg (List.take n) hx
  rw [List.take_append_of_le_length hu, List.take_append_of_le_length hv] at htake
  exact h htake

/-- A position that is known is shown. -/
theorem not_prefix_message {f : Fault}
    (h : f.report.stage ≠ .semantic → 1 ≤ f.report.position.line) :
    ¬utf8 "parser error: " <+: f.message ∧ ¬utf8 "lexer error on line 0" <+: f.message := by
  cases f with
  | lexical e =>
    have hline : 0 < e.position.line := h (by rintro ⟨⟩)
    have hmessage : (Fault.lexical e).message = utf8 "lexer error on line " ++
        (decimal e.position.line ++ (utf8 ": " ++ e.fault.text)) := by
      simp [Fault.message, Fault.report, Report.message]
    rw [hmessage]
    refine ⟨not_prefix_append_of_take_ne 1 (by decide) (by decide) (by decide), fun hstart => ?_⟩
    -- the byte behind the common text is the first digit of the line
    have hzero : utf8 "lexer error on line 0" = utf8 "lexer error on line " ++ [48] := by decide
    rw [hzero, List.prefix_append_right_inj] at hstart
    obtain ⟨b, hb, hne⟩ := exists_head?_decimal hline
    obtain ⟨bs, hbs⟩ := List.head?_eq_some_iff.mp hb
    rw [hbs] at hstart
    exact hne (List.cons_prefix_cons.mp hstart).1.symm
  | parsing e q =>
    have hknown : q.isKnown = true := decide_eq_true (h (by rintro ⟨⟩) : 0 < q.line)
    have hmessage : (Fault.parsing e q).message = utf8 "parser error at " ++
        (q.text ++ (utf8 ": " ++ e.text)) := by
      simp [Fault.message, Fault.report, Report.message, hknown]
    rw [hmessage]
    exact ⟨not_prefix_append_of_take_ne 13 (by decide) (by decide) (by decide),
      not_prefix_append_of_take_ne 1 (by decide) (by decide) (by decide)⟩
  | semantic e =>
    have hmessage : (Fault.semantic e).message = utf8 "semantic error: " ++ e.text := rfl
    rw [hmessage]
    exact ⟨not_prefix_append_of_take_ne 1 (by decide) (by decide) (by decide),
      not_prefix_append_of_take_ne 1 (by decide) (by decide) (by decide)⟩

/-! ### Compiling -/

/-- A text fails to compile because it is not parsed, or because the code of its trees is refused. -/
theorem compile_eq_error {s : Bytes} {f : Fault} (h : compile s = .error f) :
    parse s = .error f ∨ ∃ p e, parse s = .ok p ∧ f = .semantic e := by
  rw [compile, compileFully] at h
  rcases hp : parse s with f' | p
  · rw [hp] at h
    exact .inl (congrArg Except.error (Except.error.inj h))
  · rw [hp] at h
    rcases hg : generate p .empty with ⟨e | target, t⟩
    · simp only [hg] at h
      exact .inr ⟨p, e, rfl, (Except.error.inj h).symm⟩
    · simp only [hg] at h
      cases h

/-! ### Compiling with an engine -/

/-- Why a text is not compiled with an engine. -/
inductive Failure where
  /-- The engine refuses the rules or the text, with this message. -/
  | refused (message : Bytes)
  | fault (f : Fault)

namespace Engine

/-- The forms of a text, read from the tokens that come of it with an engine. -/
def parse (engine : Engine) (s : Bytes) : Except Failure Program :=
  match engine.deliver s with
  | .error message => .error (.refused message)
  | .ok d => (FormState.outcome d.ending {} d.tokens d.error).mapError .fault

/-- The target text of a source text, compiled with an engine. -/
def compile (engine : Engine) (s : Bytes) : Except Failure Bytes :=
  match engine.parse s with
  | .error failure => .error failure
  | .ok program =>
    match generate program .empty with
    | (.ok target, _) => .ok target
    | (.error fault, _) => .error (.fault (.semantic fault))

variable {engine : Engine}

/-- With a lawful engine a text is parsed as without. -/
theorem Lawful.parse_eq (h : engine.Lawful) (s : Bytes) :
    engine.parse s = (PrefixForth.parse s).mapError .fault := by
  obtain ⟨d, hd, htokens, hending⟩ := h.exists_delivery s
  simp only [parse, hd, parse_eq_outcome, htokens, hending]

/-- With a lawful engine a text is compiled as without. -/
theorem Lawful.compile_eq (h : engine.Lawful) (s : Bytes) :
    engine.compile s = (PrefixForth.compile s).mapError .fault := by
  rw [compile, h.parse_eq, PrefixForth.compile, compileFully]
  rcases PrefixForth.parse s with f | program
  · rfl
  · simp only [Except.mapError]
    rcases generate program .empty with ⟨_ | target, t⟩ <;> rfl

end Engine

/-- The fault is not one that only an engine could have. -/
def LexicalFault.IsOwn (fault : LexicalFault) : Prop :=
  fault ≠ .unrecognizedInput ∧ ∀ message, fault ≠ .engine message

/-- The errors of a text are those of its rules, or about a byte for which there is none. -/
theorem Lexes.isOwn {c : Cursor} {ts : List Token} {e : LexicalError} (h : Lexes c ts (some e)) :
    e.fault.IsOwn := by
  generalize herror : some e = error at h
  induction h with
  | ended => cases herror
  | stuck here =>
    cases herror
    cases here <;> exact ⟨by rintro ⟨⟩, by rintro _ ⟨⟩⟩
  | skip _ _ _ ih | token _ _ _ ih => exact ih herror

/-- A text that is not parsed has no fault that only an engine could have. -/
theorem isOwn_of_parse {s : Bytes} {e : LexicalError} (h : parse s = .error (.lexical e)) :
    e.fault.IsOwn := by
  rw [parse_eq_outcome] at h
  rcases FormState.outcome_eq_error h with ⟨e', herror, heq⟩ | ⟨e', q, heq⟩
  · cases heq
    have hlexes : Lexes (.ofText s) (tokenize s).1 (tokenize s).2 := Lexes.of_tokens _
    rw [herror] at hlexes
    exact hlexes.isOwn
  · cases heq

/-- **Every fault belongs to a stage and a reason, and is located.** Let a text not be compiled with a
lawful engine. The engine has not refused it, and the fault is the one without an engine; it is not one
that only an engine could have. It has a reason of its own stage and of no other. It is of the last stage
exactly if the text is parsed. Otherwise it is the fault of parsing, and its position is a place of the
text that its stage may blame; lines and columns are counted from 1. So no message is without a place, and
none names a line 0. -/
theorem faults_are_classified_and_located {engine : Engine} (hengine : engine.Lawful) {s : Bytes}
    {failure : Failure} (h : engine.compile s = .error failure) :
    ∃ f : Fault, failure = .fault f ∧ compile s = .error f ∧
      engine.tokenize s = .ok (tokenize s) ∧
      (∀ e, f = .lexical e → e.fault.IsOwn) ∧
      (∀ stage : Stage, f.report.reason ∈ stage.reasons ↔ f.report.stage = stage) ∧
      (f.report.stage = .semantic ↔ ∃ p, engine.parse s = .ok p) ∧
      (f.report.stage ≠ .semantic → engine.parse s = .error (.fault f) ∧
        Blames s f.report.stage f.report.position ∧
        1 ≤ f.report.position.line ∧ 1 ≤ f.report.position.column) ∧
      ¬utf8 "parser error: " <+: f.message ∧ ¬utf8 "lexer error on line 0" <+: f.message := by
  rw [hengine.compile_eq] at h
  rcases hcompile : compile s with f | target
  · rw [hcompile] at h
    refine ⟨f, (Except.error.inj h).symm, rfl, hengine.tokenize_eq s, ?_⟩
    rw [hengine.parse_eq]
    -- a fault of parsing, or one of generation after the text was parsed
    rcases compile_eq_error hcompile with hparse | ⟨p, e, hparse, rfl⟩
    · obtain ⟨hstage, hblames⟩ := blames_of_parse hparse
      rw [hparse]
      refine ⟨?_, f.reason_mem_reasons_iff, ⟨fun hsemantic => absurd hsemantic hstage, ?_⟩,
        fun _ => ⟨rfl, hblames, hblames.one_le⟩, not_prefix_message fun _ => hblames.one_le.1⟩
      · rintro e rfl
        exact isOwn_of_parse hparse
      · rintro ⟨p, hp⟩
        cases hp
    · have hstage : (Fault.semantic e).report.stage = .semantic := rfl
      rw [hparse]
      refine ⟨by rintro e ⟨⟩, Fault.reason_mem_reasons_iff _,
        ⟨fun _ => ⟨p, rfl⟩, fun _ => hstage⟩, fun hne => absurd hstage hne,
        not_prefix_message fun hne => absurd hstage hne⟩
  · rw [hcompile] at h
    cases h

/-- A form that is open where the text ends, two lines on and behind blanks. -/
theorem faults_are_classified_and_located_unclosed :
    ∃ f, Engine.byRules.compile (utf8 "(if true\n  (stdout \"a\nb\") \n") = .error (.fault f) ∧
      f.report.stage = .parser ∧ f.report.reason = .mismatchedParenthesis ∧
      f.report.position = ⟨3, 4⟩ ∧
      Blames (utf8 "(if true\n  (stdout \"a\nb\") \n") .parser ⟨3, 4⟩ ∧
      ¬utf8 "parser error: " <+: f.message := by
  have hlexer : compile (utf8 "(if true\n  (stdout \"a\nb\") \n") =
      .error (.parsing (.notClosed ⟨1, 1⟩ (Token.atEnd ⟨3, 4⟩)) ⟨3, 4⟩) := by decide +kernel
  have hcompile := Engine.lawful_byRules.compile_eq (utf8 "(if true\n  (stdout \"a\nb\") \n")
  rw [hlexer] at hcompile
  obtain ⟨f, hf, -, -, -, -, -, hplaced, hmessage, -⟩ :=
    faults_are_classified_and_located Engine.lawful_byRules hcompile
  cases hf
  obtain ⟨-, hblames, -⟩ := hplaced (by decide)
  exact ⟨_, hcompile, rfl, rfl, rfl, hblames, hmessage⟩

end PrefixForth
