import PrefixForth.Batch
import PrefixForth.Command.Flags
import PrefixForth.Command.Settings

/-!
# The command

The command compiles the files that it is given into one output. Without files, or when it is told
so, it starts an interactive session instead. A flag of the command line counts more than the
settings file, and that more than the flag's usual value.
-/

namespace PrefixForth

/-- What the command is asked to do. -/
inductive Action where
  | misuse (fault : FlagFault)
  | help
  | interact
  | batch (files : List Bytes) (output : Bytes)
  deriving DecidableEq, Repr

/-- The output of a batch for which none is named. -/
def defaultOutput : Bytes := utf8 "stutest.out"

/-- The flags and what they are for. -/
def usageText : Bytes :=
  utf8 "Usage:\n  ibtl [files...] [flags]\n\nFlags:\n" ++
    utf8 "  -h, --help             help for ibtl\n" ++
    utf8 "  -i, --interactive      Force run in interactive mode\n" ++
    utf8 "      --logfile string   URL of log output location (default \"stderr\")\n" ++
    utf8 "  -o, --output string    Output file for batch mode, '-' for stdout (default \"" ++
    defaultOutput ++ utf8 "\")\n"

/-- What the command is for. -/
def aboutText : Bytes :=
  utf8 "Welcome to IBTL V0.1 (experimental)\n\n" ++
    utf8 "IBTL compiles programs written in a fully parenthesized prefix language to\n" ++
    utf8 "Gforth source code.\n\n" ++
    utf8 "If called with one or more files, IBTL compiles each of them and writes the\n" ++
    utf8 "Gforth code to an output file. If called without files, or with flag -i, it\n" ++
    utf8 "will prompt for IBTL statements in a terminal REPL and print the Gforth\n" ++
    utf8 "equivalent of each of them."

namespace Action

/-- What the command is asked to do by its arguments and settings. -/
def ofArguments (args : List Bytes) (settings : Settings) : Action :=
  match Arguments.read args with
  | .error fault => .misuse fault
  | .ok a =>
    let interactive :=
      a.interactive.getD (((settings.get? (utf8 "interactive")).bind switchValue?).getD false)
    let output := a.output.getD ((settings.get? (utf8 "output")).getD [])
    if a.help then
      .help
    else if a.files = [] ∨ interactive then
      .interact
    else
      .batch a.files (if output = [] then defaultOutput else output)

/-- What the command writes about its own use. -/
def usage : Action → Bytes
  | misuse fault => utf8 "Error: " ++ fault.message ++ utf8 "\n" ++ usageText ++ utf8 "\n"
  | help => aboutText ++ utf8 "\n\n" ++ usageText
  | _ => []

end Action

/-- How a run of the command ends. -/
structure Outcome where
  exit : Nat
  stderr : Bytes := []
  usage : Bytes := []
  workspace : Workspace
  deriving Repr

/-- Runs the command, with nothing that cancels it; an interactive session is left to its own. -/
def Action.run (a : Action) (w : Workspace) : Outcome :=
  match a with
  | .misuse _ => ⟨2, [], a.usage, w⟩
  | .help => ⟨0, [], a.usage, w⟩
  | .interact => ⟨0, [], [], w⟩
  | .batch files output =>
    match compileFiles false files output w with
    | (.ok (), w') => ⟨0, [], [], w'⟩
    | (.error fault, w') =>
      ⟨1, utf8 "ibtl: " ++ fault.message ++ [lineFeed], [], w'⟩

end PrefixForth
