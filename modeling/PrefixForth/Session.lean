import PrefixForth.Compile
import PrefixForth.Display
import PrefixForth.Text.Blank

/-!
# The interactive session

A session reads lines. A line whose first word is a command is obeyed, an empty one is passed over,
and every other line is compiled as a program of its own: nothing that a line declares is known to
the next. `bye` ends the session.
-/

namespace PrefixForth

/-- The ways to edit a line. -/
inductive EditMode where
  | emacs
  | vi
  deriving DecidableEq, Repr

/-- The name of a way to edit. -/
def EditMode.name : EditMode → Bytes
  | emacs => utf8 "emacs"
  | vi => utf8 "vi"

/-- The way to edit with a given name. -/
def EditMode.ofName? (s : Bytes) : Option EditMode :=
  [emacs, vi].find? (·.name = s)

/-- The prompt with a given text. -/
def prompt (s : Bytes) : Bytes :=
  Colour.green.paint (s ++ utf8 "> ")

/-- The prompt of a session that has not been given another one. -/
def defaultPrompt : Bytes := prompt (utf8 "ibtl")

/-- What a session remembers from line to line. -/
structure Session where
  mode : EditMode := .emacs
  prompt : Bytes := defaultPrompt
  deriving DecidableEq, Repr

/-- What a session writes. -/
structure Response where
  stdout : Bytes := []
  stderr : Bytes := []
  /-- The session has ended. -/
  ended : Bool := false
  deriving DecidableEq, Repr

/-- The first line of every session. -/
def welcomeText : Bytes :=
  utf8 "Welcome to ibtl [V0.1 experimental]"

/-- The answer to the command `help`. -/
def helpText : Bytes :=
  welcomeText ++ utf8 "\n\nThe following commands are available:\n\n" ++
    utf8 "  help               : print this message\n" ++
    utf8 "  bye                : quit application\n" ++
    utf8 "  mode [mode]        : display or set current editing mode\n" ++
    utf8 "  setprompt [prompt] : set current prompt [to default]\n" ++
    utf8 "  symbols <ibtl>     : compile an IBTL text and list its symbols\n" ++
    utf8 "  tokens <ibtl>      : list the tokens of an IBTL text\n" ++
    utf8 "\nEvery other line is compiled as an IBTL program, e.g.\n\n" ++
    utf8 "  (let (x real)) (:= x 2) (stdout (* x 1.5))\n\n"

/-- The character, by its code, reaches a session when it is typed. -/
def acceptsTyped (code : Int) : Bool :=
  code ≠ 26

/-- The text without the bytes zero at its ends. -/
def trimZeros (s : Bytes) : Bytes :=
  ((s.dropWhile (· = 0)).reverse.dropWhile (· = 0)).reverse

namespace Session

/-- What a new session writes before the first line. -/
def welcome : Response :=
  { stderr := welcomeText ++ [lineFeed] }

/-- The answer to a program. -/
def runProgram (line : Bytes) : Response :=
  match compile (trimZeros line) with
  | .ok target => { stdout := (Item.text target).shown }
  | .error fault => { stderr := (Item.ofFault fault).shown }

/-- The answer to the command `tokens`. -/
def runTokens (s : Bytes) : Response :=
  let (ts, error) := tokenize s
  { stdout := (Item.table (tokenTable ts)).shown
    stderr := (error.map fun e => (Item.ofFault (.lexical e)).shown).getD [] }

/-- The answer to the command `symbols`. -/
def runSymbols (s : Bytes) : Response :=
  match compileFully s with
  | .ok c => { stdout := (Item.table (symbolBox c.symbols)).shown }
  | .error fault => { stderr := (Item.ofFault fault).shown }

/-- The answer to the command `mode` with the given words after it. -/
def runMode (s : Session) (args : List Bytes) : Response × Session :=
  match args.head?.bind EditMode.ofName? with
  | some mode => ({}, { s with mode := mode })
  | none => ({ stderr := utf8 "> current input mode: " ++ s.mode.name ++ [lineFeed] }, s)

/-- The prompt that the command `setprompt` asks for: what follows the command and one character
after it, or the prompt of a new session. -/
def promptOf (line : Bytes) : Bytes :=
  if line.length ≤ 10 then defaultPrompt else line.drop 10 ++ [blank]

/-- The answer to a line. -/
def respond (s : Session) (line : Bytes) : Response × Session :=
  let trimmed := trimBlanks line
  match blankWords trimmed with
  | [] => ({}, s)
  | word :: args =>
    let rest := trimBlanks (trimmed.drop word.length)
    if word = utf8 "help" then
      ({ stderr := helpText }, s)
    else if word = utf8 "bye" then
      ({ stderr := utf8 "> goodbye!\n", ended := true }, s)
    else if word = utf8 "mode" then
      s.runMode args
    else if word = utf8 "setprompt" then
      ({}, { s with prompt := promptOf trimmed })
    else if word = utf8 "tokens" then
      (runTokens rest, s)
    else if word = utf8 "symbols" then
      (runSymbols rest, s)
    else
      (runProgram trimmed, s)

/-- The answers to some lines, up to the end of the session. -/
def respondAll (s : Session) : List Bytes → List Response
  | [] => []
  | line :: lines =>
    let (r, s') := s.respond line
    r :: if r.ended then [] else s'.respondAll lines

/-- All that a session writes: its welcome, then an answer to each line that it reads. -/
def transcript (lines : List Bytes) : List Response :=
  welcome :: ({} : Session).respondAll lines

end Session

end PrefixForth
