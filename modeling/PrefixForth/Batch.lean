import PrefixForth.FileTree
import PrefixForth.Group

/-!
# Compiling files

A batch reads all its files, compiles them as a group, and writes the target texts into one output,
in the order of the files and each with a line feed after it. It is all or nothing: the output is
touched only after every file has been compiled. A batch that is canceled before its group starts
compiles nothing.

The output named `-` is what the run prints.
-/

namespace PrefixForth

/-- What a run can change: files, and what it prints. -/
structure Workspace where
  files : FileTree := .empty
  printed : Bytes := []
  deriving DecidableEq, Repr

/-- Why a batch failed. -/
inductive BatchFault where
  | file (fault : FileFault)
  /-- The file with the given name does not compile. -/
  | source (name : Bytes) (fault : Fault)
  | canceled
  deriving DecidableEq, Repr

/-- The message for a failed batch. -/
def BatchFault.message : BatchFault → Bytes
  | file fault => fault.message
  | source name fault => name ++ utf8 ": " ++ fault.message
  | canceled => GroupFault.canceled.message

/-- The fault of a group of files, by the name of the file. -/
def BatchFault.ofGroup (names : List Bytes) : GroupFault → BatchFault
  | .canceled => .canceled
  | .unit fault => .source (names.getD fault.index []) fault.fault

/-- The contents of files, in order; the first file that cannot be read ends the reading. -/
def readAll (t : FileTree) : List Bytes → Except FileFault (List Bytes)
  | [] => .ok []
  | name :: names => do
    let content ← t.read name
    let contents ← readAll t names
    pure (content :: contents)

/-- The output for some target texts: the texts that are not empty, each with a line feed. -/
def outputText (targets : List Bytes) : Bytes :=
  (targets.filter (· ≠ [])).flatMap (· ++ [lineFeed])

/-- Writes to an output. -/
def Workspace.emit (w : Workspace) (output content : Bytes) :
    Except FileFault Unit × Workspace :=
  if output = utf8 "-" then
    (.ok (), { w with printed := w.printed ++ content })
  else
    match w.files.write output content with
    | .ok files => (.ok (), { w with files := files })
    | .error fault => (.error fault, w)

/-- Compiles files into an output; the units of the group take their steps in the order of the
schedule, and the group may have been canceled beforehand. -/
def compileFilesUnder (schedule : List Nat) (canceled : Bool) (names : List Bytes) (output : Bytes)
    (w : Workspace) : Except BatchFault Unit × Workspace :=
  match readAll w.files names with
  | .error fault => (.error (.file fault), w)
  | .ok sources =>
    match compileAllUnder schedule canceled sources with
    | .error fault => (.error (.ofGroup names fault), w)
    | .ok targets =>
      match w.emit output (outputText targets) with
      | (.ok (), w') => (.ok (), w')
      | (.error fault, w') => (.error (.file fault), w')

/-- Compiles files into an output, one after the other. -/
def compileFiles (canceled : Bool) (names : List Bytes) (output : Bytes) (w : Workspace) :
    Except BatchFault Unit × Workspace :=
  compileFilesUnder (Group.oneByOne names.length) canceled names output w

end PrefixForth
