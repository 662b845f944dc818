import PrefixForth.Command
import PrefixForth.Session

/-!
# The program

Everything that touches the outside: arguments, the settings file, files, and the terminal. What is
done with them is decided by `Action.run` and `Session.respond`.
-/

namespace PrefixForth

/-- A text as the system's functions take it. -/
def systemText (s : Bytes) : String :=
  (String.fromUTF8? ⟨s.toArray⟩).getD ""

/-- The content of a file, if it can be read. -/
def readFile? (name : String) : IO (Option Bytes) := do
  try
    return some (← IO.FS.readBinFile name).toList
  catch _ =>
    return none

/-- There is a directory with the given name. -/
def directoryExists (name : String) : IO Bool := do
  try
    (← IO.FS.realPath name).isDir
  catch _ =>
    return false

/-- The places on the way that a name leads, each with the name that leads there. -/
def waypoints (p : Path) (name : Bytes) : List Bytes → List (Path × Bytes)
  | [] => []
  | part :: parts =>
    let p' :=
      if part = [] ∨ part = utf8 "." then p
      else if part = above then Path.parent p
      else p ++ [part]
    let name' := name ++ part
    (p', name') :: waypoints p' (name' ++ [slash]) parts

/-- The places on the way that a name leads, from where it starts. -/
def waypointsOf (name : Bytes) : List (Path × Bytes) :=
  match name with
  | [] => []
  | b :: rest =>
    if b = slash then waypoints [[slash]] [slash] (splitAt slash rest)
    else waypoints [] [] (splitAt slash name)

/-- The tree with what stands at a place on disk. -/
def look (t : FileTree) (place : Path × Bytes) : IO FileTree := do
  let name := systemText place.2
  if ← directoryExists name then
    return { t with directories := place.1 :: t.directories }
  match ← readFile? name with
  | some content => return t.put place.1 content
  | none => return t

/-- The files on disk as far as the given names lead to them. -/
def survey (names : List Bytes) : IO FileTree :=
  (names.flatMap waypointsOf).foldlM look .empty

/-- Writes bytes. -/
def writeBytes (stream : IO.FS.Stream) (s : Bytes) : IO Unit := do
  stream.write ⟨s.toArray⟩
  stream.flush

/-- Answers lines until the session or the input ends. -/
partial def interact (s : Session) : IO Unit := do
  let stdout ← IO.getStdout
  writeBytes stdout s.prompt
  let line ← (← IO.getStdin).getLine
  if line.isEmpty then
    return
  let (r, s') := s.respond (utf8 line)
  writeBytes stdout r.stdout
  writeBytes (← IO.getStderr) r.stderr
  unless r.ended do
    interact s'

/-- The settings of the user. -/
def readSettings : IO Settings := do
  match ← IO.getEnv "HOME" with
  | some home => return .ofText ((← readFile? (home ++ "/.ibtl.nt")).getD [])
  | none => return {}

/-- The names of files that an action is about. -/
def Action.names : Action → List Bytes
  | .batch files output => output :: files
  | _ => []

end PrefixForth

open PrefixForth

/-- Runs the command with the arguments that it is called with. -/
def main (args : List String) : IO UInt32 := do
  let stdout ← IO.getStdout
  let stderr ← IO.getStderr
  let action := Action.ofArguments (args.map utf8) (← readSettings)
  if action = .interact then
    writeBytes stderr Session.welcome.stderr
    interact {}
    return 0
  let files ← survey action.names
  let outcome := action.run { files := files }
  for (path, content) in outcome.workspace.files.changedFrom files do
    IO.FS.writeBinFile (systemText (Path.text path)) ⟨content.toArray⟩
  writeBytes stdout outcome.workspace.printed
  writeBytes stderr outcome.stderr
  writeBytes (if outcome.exit = 0 then stdout else stderr) outcome.usage
  return outcome.exit.toUInt32
