import PrefixForth.Proofs.Concatenation
import PrefixForth.Proofs.Token.Spacing

/-!
# Layout

What a text means does not depend on the places of its tokens. Reading commutes with every map of
positions, so also with the one that forgets them: two texts with tokens of the same kinds and texts
give trees that are equal without their places, or faults that are (`placeOutcome_parse_congr`).
Generating code does not look at places either (`generate_congr`).

The main statement is `compile_ignores_layout`. It also says which texts have the same tokens for
sure: all that one gets by writing the tokens down again with other blanks between them.
-/

namespace PrefixForth

/-- The map that forgets where something stands. -/
def Position.forget : Position → Position := fun _ => .unknown

/-- The trees of a program without their places. -/
def Program.unplaced (p : Program) : Program :=
  p.map (Node.relocate .forget)

section Reading

variable {s s' : Bytes} {ts ts' : List Token}

/-- Tokens of the same looks are the same but for their positions. -/
theorem map_relocate_forget (h : ts.map Token.look = ts'.map Token.look) :
    ts.map (Token.relocate .forget) = ts'.map (Token.relocate .forget) := by
  have hlook : ∀ us : List Token, us.map (Token.relocate .forget) =
      (us.map Token.look).map fun l => ⟨l.1, l.2, .unknown⟩ := fun us => by
    rw [List.map_map]
    rfl
  rw [hlook, hlook, h]

/-- Tokens that look the same lead to the same, places apart, wherever the texts end. -/
theorem placeOutcome_outcome_congr (h : ts.map Token.look = ts'.map Token.look) (q q' : Position) :
    placeOutcome [] .forget (({} : FormState).outcome q ts none) =
      placeOutcome [] .forget (({} : FormState).outcome q' ts' none) := by
  have hplaced : ∀ (q : Position) (ts : List Token),
      placeOutcome [] .forget (({} : FormState).outcome q ts none) =
        (({} : FormState).place [] .forget).outcome .unknown (ts.map (Token.relocate .forget)) none :=
    fun q ts => (FormState.outcome_place [] .forget {} q ts none).symm
  rw [hplaced, hplaced, map_relocate_forget h]

/-- Texts whose tokens look the same are read as the same, places apart. -/
theorem placeOutcome_parse_congr (hs : tokenize s = (ts, none)) (hs' : tokenize s' = (ts', none))
    (h : ts.map Token.look = ts'.map Token.look) :
    placeOutcome [] .forget (parse s) = placeOutcome [] .forget (parse s') := by
  rw [parse_eq_outcome, parse_eq_outcome, hs, hs']
  exact placeOutcome_outcome_congr h _ _

/-- Well-formed trees that are equal without their places have the same code. -/
theorem generate_congr {p p' : Program} (hp : ∀ n ∈ p, n.WellFormed)
    (hp' : ∀ n ∈ p', n.WellFormed) (h : p.unplaced = p'.unplaced) {t : SymbolTable}
    (ht : t.Sound) : generate p t = generate p' t := by
  have hchecked : Program.checkedCode p = Program.checkedCode p' := calc
    _ = Program.checkedCode p.unplaced := (Program.checkedCode_relocate _ p).symm
    _ = Program.checkedCode p'.unplaced := by rw [h]
    _ = Program.checkedCode p' := Program.checkedCode_relocate _ p'
  have hhere := (answers_generate fun n hn => (hp n hn).complete).agrees t ht
  have hthere := (answers_generate fun n hn => (hp' n hn).complete).agrees t ht
  rw [checkedGenerate, hchecked, ← checkedGenerate, hthere] at hhere
  exact (Option.some.inj hhere).symm

/-- A fault of parsing is a fault of compiling. -/
theorem compile_of_parse_error {e : Fault} (h : parse s = .error e) : compile s = .error e := by
  simp only [compile, compileFully, h]
  rfl

/-- Trees of texts whose tokens look the same are compiled to the same target, or fail for the same
cause. -/
theorem compile_congr {p p' : Program} (hp : parse s = .ok p) (hp' : parse s' = .ok p')
    (h : p.unplaced = p'.unplaced) : compile s = compile s' := by
  have hgenerate : generate p .empty = generate p' .empty :=
    generate_congr (fun n hn => wellFormed_of_parse hp hn)
      (fun n hn => wellFormed_of_parse hp' hn) h SymbolTable.sound_empty
  rw [compile_of_parse hp, compile_of_parse hp', hgenerate]

end Reading

/-- **Layout does not matter.** If the tokens of two texts have the same kinds and texts, the texts
are read as trees that are equal without their places, and then they are compiled to the same bytes
or have the same semantic fault; or both fail to be read, at the same stage and for the same reason.
And the tokens of a text, written down with at least one blank between any two of them and any
blanks around them, are read as tokens of the same kinds and texts. -/
theorem compile_ignores_layout {s : Bytes} {ts : List Token} (hs : tokenize s = (ts, none)) :
    (∀ s' ts', tokenize s' = (ts', none) → ts'.map Token.look = ts.map Token.look →
      (∃ p p', parse s = .ok p ∧ parse s' = .ok p' ∧ p.unplaced = p'.unplaced ∧
        ((∃ target, compile s = .ok target ∧ compile s' = .ok target) ∨
          ∃ fault, compile s = .error (.semantic fault) ∧ compile s' = .error (.semantic fault))) ∨
      ∃ e e', parse s = .error e ∧ parse s' = .error e' ∧
        compile s = .error e ∧ compile s' = .error e' ∧
        e.report.stage = e'.report.stage ∧ e.report.reason = e'.report.reason) ∧
    ∀ lead s', (∀ b ∈ lead, isBlankByte b = true) → Spread (ts.map Token.text) s' →
      ∃ ts', tokenize (lead ++ s') = (ts', none) ∧ ts'.map Token.look = ts.map Token.look := by
  refine ⟨fun s' ts' hs' hlook => ?_, fun lead s' hlead hs' => exists_tokenize_spread hs hlead hs'⟩
  have hread := placeOutcome_parse_congr hs hs' hlook.symm
  rcases hp : parse s with e | p <;> rcases hp' : parse s' with e' | p' <;> rw [hp, hp'] at hread
  · have he : e.relocate .forget = e'.relocate .forget := Except.error.inj hread
    obtain ⟨hstage, hreason⟩ := e.report_relocate .forget
    obtain ⟨hstage', hreason'⟩ := e'.report_relocate .forget
    rw [he] at hstage hreason
    exact .inr ⟨e, e', rfl, rfl, compile_of_parse_error hp, compile_of_parse_error hp',
      hstage.symm.trans hstage', hreason.symm.trans hreason'⟩
  · cases hread
  · cases hread
  · have htrees : p.unplaced = p'.unplaced := Except.ok.inj hread
    refine .inl ⟨p, p', rfl, rfl, htrees, ?_⟩
    rw [← compile_congr hp hp' htrees, compile_of_parse hp]
    rcases (generate p .empty).1 with fault | target
    · exact .inr ⟨fault, rfl, rfl⟩
    · exact .inl ⟨target, rfl, rfl⟩

/-- A string keeps the blanks that it holds, and between other tokens they may be added. -/
theorem compile_ignores_layout_string :
    ∃ target, compile (utf8 "(stdout\"a b\")") = .ok target ∧
      compile (utf8 "\n( stdout\t\"a b\"\r\n)") = .ok target := by
  have hrun : (tokenize (utf8 "(stdout\"a b\")")).2 = none ∧
      (tokenize (utf8 "(stdout\"a b\")")).1.map Token.text =
        [utf8 "(", utf8 "stdout", utf8 "\"a b\"", utf8 ")"] ∧
      (compile (utf8 "(stdout\"a b\")")).toOption.isSome = true := by
    decide +kernel
  obtain ⟨hnone, htexts, haccepted⟩ := hrun
  obtain ⟨hsame, hspread⟩ := compile_ignores_layout (Prod.ext rfl hnone)
  have hlaid : Spread ((tokenize (utf8 "(stdout\"a b\")")).1.map Token.text)
      (utf8 "(" ++ (utf8 " " ++ (utf8 "stdout" ++ (utf8 "\t" ++ (utf8 "\"a b\"" ++
        (utf8 "\r\n" ++ (utf8 ")" ++ ([] ++ [])))))))) := by
    rw [htexts]
    exact .cons (by decide +kernel) (by decide +kernel) (.cons (by decide +kernel) (by decide +kernel)
      (.cons (by decide +kernel) (by decide +kernel) (.cons (by decide +kernel) (by decide +kernel) .nil)))
  obtain ⟨ts', htokens, hlook⟩ := hspread (utf8 "\n") _ (by decide +kernel) hlaid
  rcases hsame _ ts' htokens hlook with ⟨p, p', -, -, -, ⟨target, h, h'⟩ | ⟨fault, h, -⟩⟩ |
      ⟨e, e', -, -, h, -⟩
  · exact ⟨target, h, h'⟩
  · rw [h] at haccepted
    cases haccepted
  · rw [h] at haccepted
    cases haccepted

end PrefixForth
