import PrefixForth.Compile
import PrefixForth.Proofs.Forth.Legibility

/-!
# What compiling yields

A compiled text has trees in the shapes of the grammar, code for each of them, which leads from the empty
symbol table to the one of the text, and a target text that is made of that code line by line
(`exists_of_compileFully`). This is what is used of a compilation wherever something is proved of target
texts.
-/

namespace PrefixForth

/-- What compiling a text yields, by the shapes and the code of its trees. -/
theorem exists_of_compileFully {s : Bytes} {c : Compilation} (h : compileFully s = .ok c) :
    ∃ vs, (∀ n ∈ c.program, n.WellFormed) ∧ EmitsAll .empty c.program vs c.symbols ∧
      c.target = targetText (vs.map fun v => v.code ++ [.word .newLine]) := by
  rw [compileFully] at h
  split at h
  · cases h
  rename_i program hparse
  split at h
  · rename_i target symbols hgenerate
    cases h
    have hp : ∀ n ∈ program, n.WellFormed := fun _ hn => wellFormed_of_parse hparse hn
    obtain ⟨lines, t', hlines, htarget⟩ := Generation.bind_eq_ok_iff.mp hgenerate
    obtain ⟨rfl, rfl⟩ := Generation.pure_eq_ok_iff.mp htarget
    obtain ⟨vs, hvs, rfl⟩ := (Program.code_eq_ok_iff hp SymbolTable.sound_empty).mp hlines
    exact ⟨vs, hp, hvs, rfl⟩
  · cases h

/-- The lines of a program are legible, if no variable has the name of a word. -/
theorem legibleAll_lines {p : Program} {t t' : SymbolTable} {vs : List Value}
    (hp : ∀ n ∈ p, n.WellFormed) (ht : t.Sound) (hvs : EmitsAll t p vs t') (hclear : t'.IsClear) :
    LegibleAll t (vs.map fun v => v.code ++ [.word .newLine]) t' :=
  hvs.legibleAll ht (SymbolTable.admits_extends.refl t')
    (fun n hn _ _ _ ht hT hv => (hp n hn).legible hclear ht hT hv) fun _ => Forth.legible_word .newLine

/-- The names of a compiled text have types that variables can have. -/
theorem sound_symbols {s : Bytes} {c : Compilation} (h : compileFully s = .ok c) :
    c.symbols.Sound := by
  obtain ⟨vs, -, hvs, -⟩ := exists_of_compileFully h
  exact hvs.sound SymbolTable.sound_empty

end PrefixForth
