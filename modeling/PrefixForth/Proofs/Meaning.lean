import PrefixForth.Proofs.Forth.Dictionary
import PrefixForth.Proofs.Forth.Simulation

/-!
# Compiled programs mean what their sources mean

A compiled text is the text of a program for the machine: the definition of powers and the code of its
lines. Run by the machine, with whatever there is on the stacks, this program prints the values that the
evaluation of the source prints and leaves the values in the variables that it leaves there, provided
the evaluation ends (`compile_preserves_meaning`). Evaluation never meets a value of a wrong type.

The machine reads the text as that program unless a variable takes the place of one of its words, or of
another variable. What does so depends on how the machine tells names apart. If it does so byte by byte,
only a variable with the very name of a word does; if it does not know case, as `Dictionary` has it, a
variable does that is the same as a word or another variable but for case. Both are dealt with.
-/

namespace PrefixForth

open Forth (Memory State)

variable {w : Nat} {R : Type} {M : Operations w R}

/-- The lines of a program, run one after the other, follow its evaluation. -/
theorem follows_lines {p : Program} {t t' T : SymbolTable} {vs : List Value} (d : Nat)
    (hp : ∀ n ∈ p, n.WellFormed) (ht : t.Sound) (hT : t'.Extends T) (hvs : EmitsAll t p vs t') :
    Follows M T (p.evaluate M d) (vs.map fun v => v.code ++ [.word .newLine]).flatten := by
  refine hvs.follows ht hT (fun n hn _ _ _ ht hT hv => ((hp n hn).simulates ht hT hv).follows) ?_
  intro σ st hm
  exact ⟨_, runs_word (by decide) rfl, hm.newLine⟩

/-- The machine, with a program of definitions and code, comes to an end in the second state. -/
def Forth.Executes (M : Operations w R) (program : List Definition × Code) (st st' : State w R) :
    Prop :=
  Reaches M program.1 (program.2, st) ([], st')

private theorem executes_targetProgram {lines : List Code} {st st' : State w R}
    (h : Forth.Runs M [powerDefinition] lines.flatten st st') :
    Forth.Executes M (targetProgram lines) st st' := by
  have hrun := h []
  rw [List.append_nil] at hrun
  rcases lines with _ | ⟨c, cs⟩
  · -- Without lines there is nothing to run, and no definition either.
    rcases hrun.cases_head with heq | ⟨_, hstep, -⟩
    · cases heq
      exact .refl
    · cases hstep
  · exact hrun

/-! ### The start of a run -/

/-- The run in which every declared variable holds what a new one holds. -/
def Run.initial (M : Operations w R) (T : SymbolTable) : Run w R where
  contents x :=
    match T.scope x with
    | some ⟨.real, _⟩ => .real (M.scientific 0 0)
    | some ⟨.bool, _⟩ => .bool false
    | some ⟨.string, _⟩ => .string []
    | _ => .int 0
  printed := []

/-- The memory of a run in which nothing has been printed. -/
def Run.memory (σ : Run w R) : Memory w R :=
  ⟨fun x => (σ.contents x).contents, []⟩

/-- At the start, memory has the initial contents of all variables. -/
private theorem represents_initial {T : SymbolTable} (hT : T.Sound) :
    Represents T (Run.initial M T) (Run.initial M T).memory where
  fits x τ a hx := by
    rcases ValueType.storable_cases (hT.storage?_isSome hx) with rfl | rfl | rfl | rfl <;>
      simp [Run.initial, hx, Datum.type]
  contents _ := rfl
  printed := rfl

/-! ### Meaning -/

/-- **Compilation preserves meaning.** The target text is that of a program for the machine. A machine
that tells names apart byte by byte reads it as that program, if no variable has the name of a word; a
machine that does not know case does so, if no variable is a word or another variable but for case. From a
memory that holds what the run of the source holds, and whatever is on the stacks, this program comes to an
end if the evaluation of the source does; the values printed and the contents of all variables are the same
then. Evaluation does not stop for a value of a wrong type. -/
theorem compile_preserves_meaning {s : Bytes} {c : Compilation} (hc : compileFully s = .ok c) :
    ∃ lines : List Code, c.target = targetText lines ∧
      (c.symbols.IsClear → Forth.read c.target = some (targetProgram lines)) ∧
      (c.symbols.ClashFree → Forth.readBy Forth.fold c.target = some (targetProgram lines)) ∧
      ∀ {w : Nat} {R : Type} (M : Operations w R) (depth : Nat) (σ : Run w R) (st : State w R),
        Represents c.symbols σ st.memory →
        c.program.evaluate M depth σ ≠ .error .type ∧
        ∀ σ', c.program.evaluate M depth σ = .ok ((), σ') → ∃ st',
          Forth.Executes M (targetProgram lines) st st' ∧ Represents c.symbols σ' st'.memory := by
  obtain ⟨vs, hp, hvs, htarget⟩ := exists_of_compileFully hc
  have hlegible := legibleAll_lines hp SymbolTable.sound_empty hvs
  have hcode := fragment_lines hp SymbolTable.sound_empty hvs
  refine ⟨_, htarget, fun hclear => ?_, fun hfree => ?_, fun M depth σ st hm => ?_⟩
  · rw [htarget]
    exact read_targetText (hlegible hclear)
  · rw [htarget]
    exact hfree.readBy_fold hcode hlegible
  · have hfollows := follows_lines (M := M) depth hp SymbolTable.sound_empty
      (SymbolTable.admits_extends.refl c.symbols) hvs σ st hm
    refine ⟨hfollows.ne_type, fun σ' hσ' => ?_⟩
    obtain ⟨st', hrun, hm'⟩ := hfollows.of_eq_ok hσ'
    exact ⟨st', executes_targetProgram hrun, hm'⟩

/-- A loop that prints powers: the machine leaves what the evaluation leaves, in whatever way it tells
names apart. -/
theorem compile_preserves_meaning_powers :
    ∃ (c : Compilation) (σ' : Run 64 Rat) (program : List Definition × Code) (st' : State 64 Rat),
      compileFully (utf8
        "(let (n int) (x real)) (:= n 2) (while (> n 0) (stdout (:= x (^ 3 n))) (:= n (- n 1)))") =
          .ok c ∧
      c.program.evaluate exactOperations 6 (.initial exactOperations c.symbols) = .ok ((), σ') ∧
      σ'.printed = [.real 9, .real 3] ∧ Forth.read c.target = some program ∧
      Forth.readBy Forth.fold c.target = some program ∧
      Forth.Executes exactOperations program
        ⟨[.number 7], [1], (Run.initial exactOperations c.symbols).memory⟩ st' ∧
      Represents c.symbols σ' st'.memory := by
  have hrun : (match compileFully (utf8
        "(let (n int) (x real)) (:= n 2) (while (> n 0) (stdout (:= x (^ 3 n))) (:= n (- n 1)))") with
      | .ok c =>
        match c.program.evaluate exactOperations 6 (.initial exactOperations c.symbols) with
        | .ok ((), σ') => decide (σ'.printed = [.real 9, .real 3]) &&
          (Forth.vocabulary.all fun x => (c.symbols.scope x).isNone) && c.symbols.clashes.isEmpty
        | .error _ => false
      | .error _ => false) = true := by decide +kernel
  split at hrun
  · rename_i c hc
    split at hrun
    · rename_i σ' hσ'
      simp only [Bool.and_eq_true, decide_eq_true_eq, List.all_eq_true, List.isEmpty_iff] at hrun
      obtain ⟨⟨hprinted, hscope⟩, hclashes⟩ := hrun
      obtain ⟨lines, -, hread, hreadBy, hmeaning⟩ := compile_preserves_meaning hc
      have hclear : c.symbols.IsClear := fun x hx => Option.isNone_iff_eq_none.mp (hscope x hx)
      obtain ⟨st', hexecutes, hst'⟩ := (hmeaning exactOperations 6 _
        ⟨[.number 7], [1], (Run.initial exactOperations c.symbols).memory⟩
        (represents_initial (sound_symbols hc))).2 σ' hσ'
      exact ⟨c, σ', _, st', hc, hσ', hprinted, hread hclear,
        hreadBy (SymbolTable.clashFree_of_clashes hclashes), hexecutes, hst'⟩
    · cases hrun
  · cases hrun

end PrefixForth
