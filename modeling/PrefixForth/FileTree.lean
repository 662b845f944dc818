import PrefixForth.Text.Bytes

/-!
# File trees

The files that a run can see: a tree of directories with files in them, as a value. Names are
resolved from the working directory, which is the root of the tree; a name that starts with a slash
is resolved from the directory `/`. The directories above the working directory are there, but what
else they hold is not part of the tree, and neither are devices: what a name leads to is a directory
or a file that keeps what is written to it.

Reading and writing fail as an operating system would: `FileFault.message` says how.
-/

namespace PrefixForth

/-- The names on the way from the working directory to a file or directory. -/
abbrev Path := List Bytes

/-- Why a name does not lead to what is wanted. -/
inductive PathFault where
  | missing
  | isDirectory
  | notDirectory
  /-- The name holds a byte that no name can hold. -/
  | badName
  | nameTooLong
  deriving DecidableEq, Repr

/-- What was tried with a file. -/
inductive FileOperation where
  | open
  | read
  deriving DecidableEq, Repr

/-- A file could not be read or written. -/
structure FileFault where
  operation : FileOperation
  name : Bytes
  cause : PathFault
  deriving DecidableEq, Repr

/-- The words for a fault of a path. -/
def PathFault.text : PathFault → Bytes
  | missing => utf8 "no such file or directory"
  | isDirectory => utf8 "is a directory"
  | notDirectory => utf8 "not a directory"
  | badName => utf8 "invalid argument"
  | nameTooLong => utf8 "file name too long"

/-- The word for an operation. -/
def FileOperation.text : FileOperation → Bytes
  | .open => utf8 "open"
  | .read => utf8 "read"

/-- The message for a file that could not be read or written. -/
def FileFault.message (f : FileFault) : Bytes :=
  f.operation.text ++ utf8 " " ++ f.name ++ utf8 ": " ++ f.cause.text

/-- A slash. -/
def slash : UInt8 := 47

/-- The part of a name that leads to the directory above. -/
def above : Bytes := utf8 ".."

namespace Path

/-- The path is that of the working directory or of a directory above it. -/
def isAncestor (p : Path) : Bool :=
  p.all (· = above)

/-- The path stays in the working directory. -/
def isInside (p : Path) : Bool :=
  p.head? ≠ some above && p.head? ≠ some [slash]

/-- The directory above the one at a path; above `/` is `/`. -/
def parent (p : Path) : Path :=
  if isAncestor p then p ++ [above]
  else if p = [[slash]] then p
  else p.dropLast

/-- A path as a name. -/
def text (p : Path) : Bytes :=
  [slash].intercalate p

end Path

/-- What stands at a path. -/
inductive Place where
  | file (content : Bytes)
  | directory
  deriving DecidableEq, Repr

/-- Files and directories. The working directory and the directory `/` are always there, and so is
every directory that holds a file. -/
structure FileTree where
  files : List (Path × Bytes) := []
  /-- Directories that are there even if they hold no file. -/
  directories : List Path := []
  deriving DecidableEq, Repr

namespace FileTree

/-- The tree without files. -/
def empty : FileTree := {}

/-- What stands at a path, if anything does. -/
def place? (t : FileTree) (p : Path) : Option Place :=
  match t.files.lookup p with
  | some content => some (.file content)
  | none =>
    if Path.isAncestor p ∨ p = [[slash]] ∨ p ∈ t.directories ∨ t.files.any (fun f => p.isPrefixOf f.1) then
      some .directory
    else
      none

/-- The tree with a file of the given content at a path. -/
def put (t : FileTree) (p : Path) (content : Bytes) : FileTree :=
  if (t.files.lookup p).isSome then
    { t with files := t.files.map fun f => if f.1 = p then (p, content) else f }
  else
    { t with files := t.files ++ [(p, content)] }

/-- The greatest length of a part of a name. -/
def maxPartLength : Nat := 255

/-- The greatest length of a name. -/
def maxNameLength : Nat := 4095

/-- Follows the parts of a name from a directory on. Every part but the last has to lead to a
directory; what the last one leads to need not be there. -/
def follow (t : FileTree) (p : Path) : List Bytes → Except PathFault Path
  | [] => .ok p
  | part :: parts =>
    match t.place? p with
    | none => .error .missing
    | some (.file _) => .error .notDirectory
    | some .directory =>
      if part = [] ∨ part = utf8 "." then
        t.follow p parts
      else if part = above then
        t.follow (Path.parent p) parts
      else if maxPartLength < part.length then
        .error .nameTooLong
      else
        t.follow (p ++ [part]) parts

/-- Where a name starts, and the parts that lead from there on. -/
def partsOf (name : Bytes) : Path × List Bytes :=
  if name.head? = some slash then ([[slash]], splitAt slash (name.drop 1))
  else ([], splitAt slash name)

/-- Why a name cannot lead anywhere, whatever the tree. -/
def nameFault? (name : Bytes) : Option PathFault :=
  if 0 ∈ name then some .badName
  else if name = [] then some .missing
  else if maxNameLength < name.length then some .nameTooLong
  else none

/-- The path that a name leads to. -/
def resolve (t : FileTree) (name : Bytes) : Except PathFault Path :=
  match nameFault? name with
  | some cause => .error cause
  | none => t.follow (partsOf name).1 (partsOf name).2

/-- The content of a file. A directory can be opened, but not read. -/
def read (t : FileTree) (name : Bytes) : Except FileFault Bytes :=
  match t.resolve name with
  | .error cause => .error ⟨.open, name, cause⟩
  | .ok p =>
    match t.place? p with
    | some (.file content) => .ok content
    | some .directory => .error ⟨.read, name, .isDirectory⟩
    | none => .error ⟨.open, name, .missing⟩

/-- A name without the slashes at its end. -/
def trimSlashes (name : Bytes) : Bytes :=
  (name.reverse.dropWhile (· = slash)).reverse

/-- The path of a file that is to be made or replaced. A name that ends in a slash asks for a
directory; its last part does not matter then. -/
def target (t : FileTree) (name : Bytes) : Except PathFault Path :=
  match nameFault? name with
  | some cause => .error cause
  | none =>
    if name.getLast? = some slash then
      let (p, parts) := partsOf (trimSlashes name)
      match t.follow p (parts.dropLast ++ [utf8 "."]) with
      | .error cause => .error cause
      | .ok _ => .error .isDirectory
    else
      match t.resolve name with
      | .error cause => .error cause
      | .ok p => if t.place? p = some .directory then .error .isDirectory else .ok p

/-- Makes a file with the given content, or replaces the content of the file that is there. -/
def write (t : FileTree) (name content : Bytes) : Except FileFault FileTree :=
  match t.target name with
  | .error cause => .error ⟨.open, name, cause⟩
  | .ok p => .ok (t.put p content)

/-- The files that are not in `old`, or have another content there. -/
def changedFrom (t old : FileTree) : List (Path × Bytes) :=
  t.files.filter fun f => old.files.lookup f.1 ≠ some f.2

/-- The names of the directories that every system has in `/`. -/
def standardDirectories : List Bytes :=
  ["bin", "boot", "dev", "etc", "home", "lib", "media", "mnt", "opt", "proc", "root", "run", "sbin",
    "srv", "sys", "tmp", "usr", "var"].map utf8

/-- The tree of a system with an empty working directory. -/
def standard : FileTree where
  directories := standardDirectories.map fun name => [[slash], name]

/-- The tree of a system with the given files, by name, in its working directory. -/
def ofFiles (files : List (Bytes × Bytes)) : FileTree :=
  files.foldl (fun t f => t.put ((splitAt slash f.1).filter (fun s => s ≠ [] ∧ s ≠ utf8 ".")) f.2)
    standard

end FileTree

end PrefixForth
