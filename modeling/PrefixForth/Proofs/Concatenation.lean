import PrefixForth.Compile
import PrefixForth.Proofs.Forth.Reader
import PrefixForth.Proofs.Forth.Safety
import PrefixForth.Proofs.Tree.Relocation

/-!
# Compiling texts put together

A text may be compiled piece by piece, as in a session: the pieces are parsed by themselves, and
code is generated for them with one symbol table, which keeps what the pieces before have declared
and assigned. For a piece that is parsed this is the same as compiling the whole text at once.

Three things come together. Behind a text that is parsed, another one is parsed as it is by itself
(`parse_append`). The generator that only goes on where all it needs is there reads no position
(`Node.checkedValue_relocate`), so trees at another place have the same code. And the lines of two
lists of forms are the lines of the first and then, from the table that these leave, those of the
second (`generate_append`).

Main statement: `compile_append_is_session`.
-/

namespace PrefixForth

open Grammar

/-! ### The generator reads no positions -/

section Relocate

variable (f : Position → Position)

private theorem Node.token_relocate (n : Node) : (n.relocate f).token = n.token.relocate f := by
  cases n
  rfl

private theorem Node.children_relocate (n : Node) :
    (n.relocate f).children = n.children.map (Node.relocate f) := by
  cases n
  rw [relocate_mk]
  rfl

private theorem checkedDeclare_relocate (bindings : List Node) :
    checkedDeclare (bindings.map (Node.relocate f)) = checkedDeclare bindings := by
  induction bindings with
  | nil => rfl
  | cons binding bindings ih =>
    obtain ⟨paren, parts⟩ := binding
    rw [List.map_cons, checkedDeclare, checkedDeclare, ih, Node.children_relocate]
    rcases parts with _ | ⟨x, _ | ⟨type, parts⟩⟩
    · rfl
    · rfl
    · simp only [Node.children, List.map_cons, List.getElem?_cons_zero, List.getElem?_cons_succ]
      funext t
      simp only [bind, Checked.need, Option.map_some, Node.token_relocate]
      rfl

mutual

/-- The value of a tree in which nothing is missing does not depend on its place. -/
theorem Node.checkedValue_relocate (consumed : Bool) :
    ∀ n : Node, (n.relocate f).checkedValue consumed = n.checkedValue consumed
  | .mk t [] => by
    rw [Node.relocate_mk, List.map_nil, Node.checkedValue, Node.checkedValue]
    rfl
  | .mk t (c :: cs) => by
    have hkind : (t.relocate f).kind = t.kind := rfl
    have htext : (t.relocate f).text = t.text := rfl
    rw [Node.relocate_mk, List.map_cons]
    unfold Node.checkedValue
    by_cases hassign : t.kind = .assignment
    · rw [if_pos hassign, if_pos (hkind.trans hassign)]
      rcases cs with _ | ⟨operand, cs⟩
      · rfl
      · simp only [List.map_cons, Node.checkedValue_relocate true operand, Node.token_relocate]
        rfl
    · rw [if_neg hassign, if_neg (hkind ▸ hassign), ← List.map_cons]
      by_cases hdeclare : t.kind = .statement ∧ t.text = Statement.declare.keyword
      · rw [if_pos hdeclare, if_pos (by rwa [hkind, htext]), checkedDeclare_relocate]
      · rw [if_neg hdeclare, if_neg (by rwa [hkind, htext]),
          Node.checkedValues_relocate t consumed 0 (c :: cs)]
        rfl

/-- The values of the parts of a form do not depend on their places. -/
theorem Node.checkedValues_relocate (head : Token) (consumed : Bool) (i : Nat) :
    ∀ ns : List Node, Node.checkedValues (head.relocate f) consumed i (ns.map (Node.relocate f)) =
      Node.checkedValues head consumed i ns
  | [] => by rw [List.map_nil, Node.checkedValues, Node.checkedValues]
  | c :: cs => by
    rw [List.map_cons, Node.checkedValues, Node.checkedValues, Node.checkedValue_relocate,
      Node.checkedValues_relocate head consumed (i + 1) cs]
    rfl

end

/-- Checked generation does not depend on positions. -/
theorem Program.checkedCode_relocate (p : Program) :
    Program.checkedCode (p.map (Node.relocate f)) = Program.checkedCode p := by
  induction p with
  | nil => rfl
  | cons n ns ih =>
    rw [List.map_cons, Program.checkedCode, Program.checkedCode, Node.checkedValue_relocate, ih]

/-- Well-formed trees have the same code elsewhere. -/
theorem generate_relocate {p : Program} (hp : ∀ n ∈ p, n.WellFormed)
    (hp' : ∀ n ∈ p.map (Node.relocate f), n.WellFormed) {t : SymbolTable} (ht : t.Sound) :
    generate (p.map (Node.relocate f)) t = generate p t := by
  have hthere := (answers_generate fun n hn => (hp' n hn).complete).agrees t ht
  have hhere := (answers_generate fun n hn => (hp n hn).complete).agrees t ht
  rw [checkedGenerate, Program.checkedCode_relocate, ← checkedGenerate, hhere] at hthere
  exact (Option.some.inj hthere).symm

end Relocate

/-! ### The lines of two programs -/

private theorem Program.code_append (p q : Program) :
    Program.code (p ++ q) =
      Program.code p >>= fun ls => Program.code q >>= fun ms => pure (ls ++ ms) := by
  induction p with
  | nil =>
    funext t
    simp only [List.nil_append, Program.code, bind, pure]
    rcases Program.code q t with ⟨_ | ms, t'⟩ <;> rfl
  | cons n p ih =>
    funext t
    simp only [List.cons_append, Program.code, ih, bind, pure]
    rcases n.value false t with ⟨_ | v, t₁⟩
    · rfl
    · rcases hp : Program.code p t₁ with ⟨_ | ls, t₂⟩
      · simp only [hp]
      · rcases hq : Program.code q t₂ with ⟨_ | ms, t₃⟩ <;> simp only [hp, hq, List.cons_append]

/-- There is a line for each form. -/
theorem Program.length_code {p : Program} {lines : List Code} {t t' : SymbolTable}
    (h : Program.code p t = (.ok lines, t')) : lines.length = p.length := by
  induction p generalizing lines t t' with
  | nil =>
    obtain ⟨rfl, -⟩ := Generation.pure_eq_ok_iff.mp h
    rfl
  | cons n p ih =>
    obtain ⟨v, t₁, -, h⟩ := Generation.bind_eq_ok_iff.mp h
    obtain ⟨rest, t₂, hrest, h⟩ := Generation.bind_eq_ok_iff.mp h
    obtain ⟨rfl, -⟩ := Generation.pure_eq_ok_iff.mp h
    rw [List.length_cons, ih hrest, List.length_cons]

/-- The target text of some lines is the preamble and then the lines. -/
theorem targetText_of_ne_nil {lines : List Code} (h : lines ≠ []) :
    targetText lines = preamble ++ [lineFeed].intercalate (lines.map Code.text) := by
  rw [targetText, if_neg (by simpa using h)]

/-- The preamble stands before the first lines only. -/
theorem targetText_append {ls ms : List Code} (hl : ls ≠ []) (hm : ms ≠ []) :
    targetText (ls ++ ms) = targetText ls ++ lineFeed :: (targetText ms).drop preamble.length := by
  have hjoin : [lineFeed].intercalate (ls.map Code.text ++ ms.map Code.text) =
      [lineFeed].intercalate (ls.map Code.text) ++
        lineFeed :: [lineFeed].intercalate (ms.map Code.text) :=
    Forth.intercalate_append (by simpa using hl) (by simpa using hm)
  rw [targetText_of_ne_nil hl, targetText_of_ne_nil hm, List.drop_left,
    targetText_of_ne_nil (List.append_ne_nil_of_left_ne_nil hl ms), List.map_append, hjoin,
    List.append_assoc]

/-- Generating code for two lists of forms is generating it for the first and then, in the table
that this leaves, for the second. -/
theorem generate_append {p q : Program} (hp : p ≠ []) (hq : q ≠ []) :
    generate (p ++ q) = generate p >>= fun u => generate q >>= fun w =>
      pure (u ++ lineFeed :: w.drop preamble.length) := by
  funext t
  simp only [generate, Program.code_append, bind, pure]
  rcases hcode : Program.code p t with ⟨_ | ls, t₁⟩
  · rfl
  · simp only
    rcases hcode' : Program.code q t₁ with ⟨_ | ms, t₂⟩
    · rfl
    · have hl : ls ≠ [] := fun h => hp (by simpa [h] using (Program.length_code hcode).symm)
      have hm : ms ≠ [] := fun h => hq (by simpa [h] using (Program.length_code hcode').symm)
      simp only [targetText_append hl hm]

/-- The target text of some forms starts with the preamble. -/
theorem exists_of_generate {p : Program} (hp : p ≠ []) {t t' : SymbolTable} {w : Bytes}
    (h : generate p t = (.ok w, t')) : ∃ v, w = preamble ++ v := by
  obtain ⟨lines, t₁, hcode, h⟩ := Generation.bind_eq_ok_iff.mp h
  obtain ⟨rfl, -⟩ := Generation.pure_eq_ok_iff.mp h
  have hne : lines ≠ [] := fun h => hp (by simpa [h] using (Program.length_code hcode).symm)
  exact ⟨_, targetText_of_ne_nil hne⟩

/-! ### Compiling -/

/-- Where parsing succeeds, all that is left to go wrong is semantic. -/
theorem compile_of_parse {s : Bytes} {p : Program} (h : parse s = .ok p) :
    compile s = (generate p .empty).1.mapError .semantic := by
  simp only [compile, compileFully, h]
  rcases generate p .empty with ⟨_ | target, t⟩ <;> rfl

/-- Code for the forms of both texts is generated with one table, and the trees of the second text
are taken as they are by themselves. -/
theorem compile_append {s₁ s₂ : Bytes} {p₁ p₂ : Program} (h₁ : parse s₁ = .ok p₁)
    (h₂ : parse s₂ = .ok p₂) (hne₁ : p₁ ≠ []) (hne₂ : p₂ ≠ []) :
    compile (s₁ ++ s₂) = ((generate p₁ >>= fun u => generate p₂ >>= fun w =>
      pure (u ++ lineFeed :: w.drop preamble.length)) .empty).1.mapError .semantic := by
  have hparse : parse (s₁ ++ s₂) = .ok (p₁ ++ p₂.map (Node.relocate (shiftPast s₁))) := by
    rw [parse_append h₁, h₂]
    rfl
  have hsound : (generate p₁ .empty).2.Sound :=
    (SymbolTable.Reachable.program p₁ .empty).sound
  have hmoved : generate (p₂.map (Node.relocate (shiftPast s₁))) (generate p₁ .empty).2 =
      generate p₂ (generate p₁ .empty).2 :=
    generate_relocate _ (fun n hn => wellFormed_of_parse h₂ hn)
      (fun n hn => wellFormed_of_parse hparse (List.mem_append_right _ hn)) hsound
  rw [compile_of_parse hparse, generate_append hne₁ (by simpa using hne₂)]
  rcases hgen : generate p₁ .empty with ⟨fault | u, t₁⟩
  · rw [Generation.bind_of_error hgen, Generation.bind_of_error hgen]
  · rw [Generation.bind_of_ok hgen, Generation.bind_of_ok hgen]
    rw [hgen] at hmoved
    simp only [bind, hmoved]

/-- **Compiling texts put together is compiling them in a session.** Behind a text that is parsed, a
second one is parsed if it is by itself, and then gives its own forms after those of the first, at
their places in the whole; a fault of it is the same one, moved there, with the same stage and
reason. If both have forms, the whole is compiled exactly if code can be generated for the first
text and then, with the table that this leaves, for the second. The target is the one of the first
text, a line feed, and the one of the second without its preamble; otherwise the whole fails as the
first of the two steps to fail does. -/
theorem compile_append_is_session {s₁ : Bytes} {p₁ : Program} (h₁ : parse s₁ = .ok p₁)
    (s₂ : Bytes) :
    ((∃ p, parse (s₁ ++ s₂) = .ok p) ↔ ∃ p₂, parse s₂ = .ok p₂) ∧
    (∀ p₂, parse s₂ = .ok p₂ →
      parse (s₁ ++ s₂) = .ok (p₁ ++ p₂.map (Node.relocate (shiftPast s₁)))) ∧
    (∀ e, parse s₂ = .error e → parse (s₁ ++ s₂) = .error (e.relocate (shiftPast s₁)) ∧
      (e.relocate (shiftPast s₁)).report.stage = e.report.stage ∧
      (e.relocate (shiftPast s₁)).report.reason = e.report.reason) ∧
    ∀ p₂, parse s₂ = .ok p₂ → p₁ ≠ [] → p₂ ≠ [] →
      (∀ target, compile (s₁ ++ s₂) = .ok target ↔ ∃ u t₁ w t₂,
        generate p₁ .empty = (.ok u, t₁) ∧ generate p₂ t₁ = (.ok w, t₂) ∧
        ∃ v, w = preamble ++ v ∧ target = u ++ lineFeed :: v) ∧
      ∀ e, compile (s₁ ++ s₂) = .error e ↔
        (∃ fault t₁, generate p₁ .empty = (.error fault, t₁) ∧ e = .semantic fault) ∨
        ∃ u t₁ fault t₂, generate p₁ .empty = (.ok u, t₁) ∧
          generate p₂ t₁ = (.error fault, t₂) ∧ e = .semantic fault := by
  have hparse : parse (s₁ ++ s₂) = placeOutcome p₁ (shiftPast s₁) (parse s₂) := parse_append h₁
  refine ⟨?_, ?_, ?_, ?_⟩
  · rw [hparse]
    cases parse s₂ <;> simp [placeOutcome]
  · intro p₂ h₂
    rw [hparse, h₂]
    rfl
  · intro e he
    rw [hparse, he]
    exact ⟨rfl, e.report_relocate _⟩
  · intro p₂ h₂ hne₁ hne₂
    -- code for both is code for the first and then, with its table, for the second
    rw [compile_append h₁ h₂ hne₁ hne₂]
    rcases hgen : generate p₁ .empty with ⟨fault | u, t₁⟩
    · rw [Generation.bind_of_error hgen]
      simp [Except.mapError, eq_comm]
    · rw [Generation.bind_of_ok hgen]
      rcases hgen' : generate p₂ t₁ with ⟨fault | w, t₂⟩
      · rw [Generation.bind_of_error hgen']
        simp [Except.mapError, hgen', eq_comm]
      · rw [Generation.bind_of_ok hgen']
        obtain ⟨v, rfl⟩ := exists_of_generate hne₂ hgen'
        simp [Except.mapError, pure, hgen', eq_comm]

/-- The second text reads a variable of the first and holds a parenthesis in a string; blanks stand
on both sides of the boundary. -/
theorem compile_append_is_session_string :
    ∃ p₁ p₂ u t₁ v t₂, parse (utf8 "(let (x int)) (:= x 2)\n ") = .ok p₁ ∧
      parse (utf8 "\n(stdout \"a)\") (stdout (^ x 3))") = .ok p₂ ∧
      generate p₁ .empty = (.ok u, t₁) ∧ generate p₂ t₁ = (.ok (preamble ++ v), t₂) ∧
      parse (utf8 "(let (x int)) (:= x 2)\n " ++ utf8 "\n(stdout \"a)\") (stdout (^ x 3))") =
        .ok (p₁ ++ p₂.map (Node.relocate (.beyond ⟨2, 2⟩))) ∧
      compile (utf8 "(let (x int)) (:= x 2)\n " ++ utf8 "\n(stdout \"a)\") (stdout (^ x 3))") =
        .ok (u ++ lineFeed :: v) := by
  have hrun : ((parse (utf8 "(let (x int)) (:= x 2)\n ")).toOption.any fun p₁ =>
      (parse (utf8 "\n(stdout \"a)\") (stdout (^ x 3))")).toOption.any fun p₂ =>
        !p₁.isEmpty && !p₂.isEmpty && (generate p₁ .empty).1.toOption.isSome &&
          (generate p₂ (generate p₁ .empty).2).1.toOption.isSome) = true := by decide +kernel
  simp only [Option.any_eq_true, toOption_eq_some_iff, Bool.and_eq_true, Bool.not_eq_true',
    List.isEmpty_eq_false_iff, Option.isSome_iff_exists] at hrun
  obtain ⟨p₁, h₁, p₂, h₂, ⟨⟨hne₁, hne₂⟩, u, hu⟩, w, hw⟩ := hrun
  obtain ⟨-, hparse, -, hcompile⟩ :=
    compile_append_is_session h₁ (utf8 "\n(stdout \"a)\") (stdout (^ x 3))")
  have hgen : generate p₁ .empty = (.ok u, (generate p₁ .empty).2) := Prod.ext hu rfl
  have hgen' : generate p₂ (generate p₁ .empty).2 =
      (.ok w, (generate p₂ (generate p₁ .empty).2).2) := Prod.ext hw rfl
  obtain ⟨v, rfl⟩ := exists_of_generate hne₂ hgen'
  refine ⟨p₁, p₂, u, _, v, _, h₁, h₂, hgen, hgen', hparse p₂ h₂, ?_⟩
  exact ((hcompile p₂ h₂ hne₁ hne₂).1 _).mpr ⟨u, _, _, _, hgen, hgen', v, rfl, rfl⟩

end PrefixForth
