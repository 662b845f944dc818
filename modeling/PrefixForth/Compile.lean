import PrefixForth.Forth.Generator
import PrefixForth.Tree.Parser

/-!
# Compiling a text

A text is compiled in two steps: its forms are read, and code is generated for them with a symbol
table of their own. The first fault ends the compilation, and no part of a target text is given.
-/

namespace PrefixForth

/-- What compiling a text yields. -/
structure Compilation where
  program : Program
  symbols : SymbolTable
  target : Bytes
  deriving Repr

/-- Compiles a text, and gives all that was made on the way. -/
def compileFully (s : Bytes) : Except Fault Compilation :=
  match parse s with
  | .error fault => .error fault
  | .ok program =>
    match generate program .empty with
    | (.ok target, symbols) => .ok ⟨program, symbols, target⟩
    | (.error fault, _) => .error (.semantic fault)

/-- The target text of a source text. -/
def compile (s : Bytes) : Except Fault Bytes :=
  (compileFully s).map Compilation.target

end PrefixForth
