import PrefixForth.Text.Quoted

/-!
# Command line flags

The arguments of the command are flags and names of files, in any order. A flag has a long name after
two dashes, and may have a short one of a single letter after one dash; short flags may be put
together after one dash. The value of a flag follows an equals sign, or it is the next argument, or
what is left of a group of short flags; a switch needs no value. Two dashes alone end the flags, and
a single dash is a name. Where a flag is given more than once, the last one counts.

The first fault ends the reading of the arguments.
-/

namespace PrefixForth

/-- The byte that flags start with. -/
def dash : UInt8 := 45

/-- The byte between a flag and its value. -/
def equalsSign : UInt8 := 61

/-- The flags of the command. -/
inductive Flag where
  | help
  | interactive
  | logfile
  | output
  deriving DecidableEq, Repr

namespace Flag

/-- All flags. -/
def all : List Flag :=
  [help, interactive, logfile, output]

/-- The long name of a flag. -/
def name : Flag → Bytes
  | help => utf8 "help"
  | interactive => utf8 "interactive"
  | logfile => utf8 "logfile"
  | output => utf8 "output"

/-- The letter of a flag, if it has one. -/
def letter? : Flag → Option UInt8
  | help => some 104
  | interactive => some 105
  | logfile => none
  | output => some 111

/-- The flag is a switch: it is on when it is given without a value. -/
def isSwitch : Flag → Bool
  | help | interactive => true
  | logfile | output => false

/-- The flag with a given long name. -/
def ofName? (s : Bytes) : Option Flag :=
  all.find? (·.name = s)

/-- The flag with a given letter. -/
def ofLetter? (b : UInt8) : Option Flag :=
  all.find? (·.letter? = some b)

/-- A flag as messages show it: with its letter, if it has one. -/
def shown (f : Flag) : Bytes :=
  match f.letter? with
  | some b => utf8 "-" ++ [b] ++ utf8 ", --" ++ f.name
  | none => utf8 "--" ++ f.name

end Flag

/-- The truth value that a word stands for. -/
def switchValue? (s : Bytes) : Option Bool :=
  if s ∈ [utf8 "1", utf8 "t", utf8 "T", utf8 "true", utf8 "TRUE", utf8 "True"] then
    some true
  else if s ∈ [utf8 "0", utf8 "f", utf8 "F", utf8 "false", utf8 "FALSE", utf8 "False"] then
    some false
  else
    none

/-- Why the arguments cannot be read. -/
inductive FlagFault where
  /-- What follows the dashes is no name. -/
  | badName (arg : Bytes)
  | unknownName (name : Bytes)
  | unknownLetter (letter : UInt8) (group : Bytes)
  | noValue (arg : Bytes)
  | noLetterValue (letter : UInt8) (group : Bytes)
  /-- The value of a switch is no truth value. -/
  | badValue (value : Bytes) (flag : Flag)
  deriving DecidableEq, Repr

/-- The message for arguments that cannot be read. -/
def FlagFault.message : FlagFault → Bytes
  | badName arg => utf8 "bad flag syntax: " ++ arg
  | unknownName name => utf8 "unknown flag: --" ++ name
  | unknownLetter letter group =>
    utf8 "unknown shorthand flag: " ++ quotedChar (Char.ofNat letter.toNat) ++ utf8 " in -" ++ group
  | noValue arg => utf8 "flag needs an argument: " ++ arg
  | noLetterValue letter group =>
    utf8 "flag needs an argument: " ++ quotedChar (Char.ofNat letter.toNat) ++ utf8 " in -" ++ group
  | badValue value flag =>
    utf8 "invalid argument " ++ quoted value ++ utf8 " for " ++ quoted flag.shown ++
      utf8 " flag: strconv.ParseBool: parsing " ++ quoted value ++ utf8 ": invalid syntax"

/-- The arguments, read. -/
structure Arguments where
  help : Bool := false
  interactive : Option Bool := none
  output : Option Bytes := none
  files : List Bytes := []
  deriving DecidableEq, Repr

namespace Arguments

/-- The arguments with the value of one more flag. -/
def set (a : Arguments) (f : Flag) (value : Bytes) : Except FlagFault Arguments :=
  match f with
  | .logfile => .ok a
  | .output => .ok { a with output := some value }
  | .help =>
    match switchValue? value with
    | some b => .ok { a with help := b }
    | none => .error (.badValue value f)
  | .interactive =>
    match switchValue? value with
    | some b => .ok { a with interactive := some b }
    | none => .error (.badValue value f)

/-- The value of a switch that is given without one. -/
def switchedOn : Bytes := utf8 "true"

/-- What reading a flag leaves: the arguments read, and whether the next one has been used up as a
value. -/
abbrev Progress := Except FlagFault (Arguments × Bool)

/-- Reads a flag with a long name; `arg` is the whole argument and `next` the one after it. -/
def readLong (a : Arguments) (arg : Bytes) (next : Option Bytes) : Progress :=
  let body := arg.drop 2
  if body.head? = some dash ∨ body.head? = some equalsSign then
    .error (.badName arg)
  else
    let name := body.takeWhile (· ≠ equalsSign)
    match Flag.ofName? name with
    | none => .error (.unknownName name)
    | some f =>
      if name.length < body.length then
        (a.set f (body.drop (name.length + 1))).map (·, false)
      else if f.isSwitch then
        (a.set f switchedOn).map (·, false)
      else
        match next with
        | some value => (a.set f value).map (·, true)
        | none => .error (.noValue arg)

/-- Reads a group of short flags; `next` is the argument after it. A group that starts with `test.`
is not for this command. -/
def readShort (a : Arguments) (next : Option Bytes) : Bytes → Progress
  | [] => .ok (a, false)
  | b :: rest =>
    if (utf8 "test.").isPrefixOf (b :: rest) then
      .ok (a, false)
    else
      match Flag.ofLetter? b with
      | none => .error (.unknownLetter b (b :: rest))
      | some f =>
        if rest.head? = some equalsSign ∧ 2 ≤ rest.length then
          (a.set f (rest.drop 1)).map (·, false)
        else if f.isSwitch then
          match a.set f switchedOn with
          | .error fault => .error fault
          | .ok a' => a'.readShort next rest
        else if rest ≠ [] then
          (a.set f rest).map (·, false)
        else
          match next with
          | some value => (a.set f value).map (·, true)
          | none => .error (.noLetterValue b [b])

/-- Reads the arguments; `used` says that the first one has been used up as a value. -/
def readFrom (a : Arguments) (used : Bool) : List Bytes → Except FlagFault Arguments
  | [] => .ok a
  | arg :: args =>
    if used then
      a.readFrom false args
    else if arg.head? ≠ some dash ∨ arg.length ≤ 1 then
      { a with files := a.files ++ [arg] }.readFrom false args
    else if arg = utf8 "--" then
      .ok { a with files := a.files ++ args }
    else
      let progress :=
        if (utf8 "--").isPrefixOf arg then
          a.readLong arg args.head?
        else
          a.readShort args.head? (arg.drop 1)
      match progress with
      | .error fault => .error fault
      | .ok (a', used') => a'.readFrom used' args

/-- Reads the arguments of the command. -/
def read (args : List Bytes) : Except FlagFault Arguments :=
  readFrom {} false args

end Arguments

end PrefixForth
