/-
The command line: options, the choice of a file, and what is done with it.

`Command.ofArguments` turns arguments into one command, decided by the first argument that is not a dump flag. Running
a command needs to know what stands at a path; `Entry` says that, and `Directory` is the tree of files below a working
directory. The answer has two channels, and a status if the command has come to an end; only failures write to the
second channel, in red if that is a terminal.
-/
import Treewalk.Program
import Treewalk.Token.Dump
import Treewalk.Tree.Dump

namespace Treewalk

/-- what is done with a file -/
inductive Mode where
  | execute | tokens | tree
deriving DecidableEq

/-- what the arguments ask for -/
inductive Command where
  | version
  | help
  | usageError
  | unknownOption (option : Bytes)
  | file (mode : Mode) (path : Bytes)
deriving DecidableEq

/-- what a command is carried out under: the bounds of runs, and whether its errors go to a terminal -/
structure Setting where
  limits : Limits
  terminal : Bool

/-- ordinary bounds, and errors go to a file -/
def Setting.standard : Setting := ⟨.standard, false⟩

/-- what a command writes, and its status once it has come to an end -/
structure Answer where
  status? : Option Nat
  out : Bytes
  err : Bytes
deriving DecidableEq

/-- the status for the caller; a command that was given up has one of its own -/
def Answer.status (a : Answer) : Nat := a.status?.getD 2

/-- what stands at a path -/
inductive Entry where
  | file (contents : Bytes)
  | directory
deriving DecidableEq

namespace Entry

/-- a directory reads as an empty text -/
def contents : Entry → Bytes
  | .file t => t
  | .directory => []

end Entry

/-- text between slashes -/
def pathParts (path : Bytes) : List Bytes :=
  match path with
  | [] => [[]]
  | b :: r =>
    if b = 47 then [] :: pathParts r
    else
      match pathParts r with
      | p :: ps => (b :: p) :: ps
      | [] => [[b]]

/-- the last part of a path has an extension: a point that is not its first byte. `.` and `..` have none. -/
def hasExtension (path : Bytes) : Bool :=
  let name := (pathParts path).getLast?.getD []
  name != bytes ".." && (name.drop 1).contains 46

/-- the files and directories below a working directory, by the parts of their paths -/
structure Directory where
  files : List (List Bytes × Bytes)
  directories : List (List Bytes)

namespace Directory

/-- parts of a path that lead somewhere -/
def properParts (path : Bytes) : List Bytes := (pathParts path).filter fun p => !p.isEmpty && p != bytes "."

/-- the working directory that files and directories at relative paths make up; a later file replaces an earlier one -/
def ofPaths (files : List (Bytes × Bytes)) (directories : List Bytes) : Directory :=
  ⟨(files.map fun (p, t) => (properParts p, t)).reverse, directories.map properParts⟩

/-- a directory stands there: the working directory, one that was made, or one that something stands in -/
def isDirectory (d : Directory) (place : List Bytes) : Bool :=
  place.isEmpty || d.directories.any (place.isPrefixOf ·) ||
    d.files.any fun (p, _) => place.length < p.length && place.isPrefixOf p

/-- what stands at the rest of a path, from a directory inside the working directory (`here`, in order) or above it -/
def walk (d : Directory) : Option (List Bytes) → List Bytes → Option Entry
  | _, [] => some .directory
  | here, part :: rest =>
    if part.isEmpty || part = bytes "." then d.walk here rest
    else if part = bytes ".." then
      match here with
      | some (p :: ps) => d.walk (some (p :: ps).dropLast) rest
      | _ => d.walk none rest
    else
      match here with
      | none => none
      | some ps =>
        let there := ps ++ [part]
        match d.files.lookup there with
        | some t => if rest.isEmpty then some (.file t) else none
        | none => if d.isDirectory there then d.walk (some there) rest else none

/-- what stands at a path; nothing stands at the empty path -/
def find? (d : Directory) (path : Bytes) : Option Entry :=
  match path with
  | [] => none
  | b :: _ => d.walk (if b = 47 then none else some []) (pathParts path)

end Directory

namespace Command

def versionText : Bytes := bytes "bella v1.0.0\n"

def usageText : Bytes :=
  bytes ("Usage: bella [options] <file>\n" ++
    "Options:\n" ++
    "  -v, --version    Print version and exit\n" ++
    "  -h, --help       Show this help message\n" ++
    "  --tokens         Print the token stream instead of running\n" ++
    "  --ast            Print the parsed program instead of running\n" ++
    "\n" ++
    "If a filename starts with '-', either use `--` to end options\n" ++
    "or prefix the filename with a path (for example `./-weird.bella`):\n" ++
    "  bella -- -weird.bella\n")

/-- what is added to a path without extension that leads nowhere -/
def extension : Bytes := bytes ".bella"

/-- a command for a file argument; it must not be empty -/
def ofFile (mode : Mode) (path : Bytes) : Command := if path.isEmpty then .usageError else .file mode path

/-- the command of the arguments that are left, in a mode -/
def ofArgumentsIn (mode : Mode) : List Bytes → Command
  | [] => .usageError
  | a :: rest =>
    if a = bytes "--" then
      match rest with
      | [] => .usageError
      | path :: _ => ofFile mode path
    else if a = bytes "-v" ∨ a = bytes "--version" then .version
    else if a = bytes "-h" ∨ a = bytes "--help" then .help
    else if a = bytes "--tokens" then ofArgumentsIn .tokens rest
    else if a = bytes "--ast" then ofArgumentsIn .tree rest
    else if a.head? = some 45 then .unknownOption a
    else ofFile mode a

/-- the command of a list of arguments; an argument ends at a NUL byte -/
def ofArguments (args : List Bytes) : Command := ofArgumentsIn .execute (args.map Bytes.beforeNul)

/-- a text in red, for a terminal -/
def red (t : Bytes) : Bytes := bytes "\x1b[31m" ++ t ++ bytes "\x1b[0m"

/-- failure with a message after what was written already -/
def failure (setting : Setting) (out message : Bytes) : Answer :=
  ⟨some 1, out, (if setting.terminal then red message else message) ++ bytes "\n"⟩

/-- how a run ends is told by the status; one that does not end has none -/
def executed (setting : Setting) : Outcome → Answer
  | .done w => ⟨some 0, w.output, []⟩
  | .failed d w => failure setting w.output d.report.shown
  | .unfinished w => ⟨none, w.output, []⟩

/-- runs or dumps a program -/
def process (setting : Setting) (mode : Mode) (p : Program) : Answer :=
  match p.tokens with
  | .error d => failure setting [] d.report.shown
  | .ok ts =>
    match mode with
    | .tokens => ⟨some 0, Token.dump ts, []⟩
    | .tree =>
      match Block.parse ts with
      | .error d => failure setting [] d.report.shown
      | .ok b => ⟨some 0, b.dump 0, []⟩
    | .execute =>
      match Block.parse ts with
      | .error d => failure setting [] d.report.shown
      | .ok b => executed setting (b.run setting.limits)

/-- runs or dumps the file at a path -/
def processFile (setting : Setting) (mode : Mode) (look : Bytes → Option Entry) (path : Bytes) : Answer :=
  match look path.beforeNul with
  | none => failure setting [] (bytes "Error: Could not open file " ++ path)
  | some entry => process setting mode ⟨path, entry.contents, true⟩

/-- the path as given if something stands there, else with the extension added if it has none -/
def resolve (look : Bytes → Option Entry) (path : Bytes) : Option Bytes :=
  if (look path).isSome then some path
  else if !hasExtension path && (look (path ++ extension)).isSome then some (path ++ extension)
  else none

/-- the paths that a command may look at -/
def paths : Command → List Bytes
  | .file _ path => [path, path ++ extension]
  | _ => []

/-- carries out a command -/
def perform (setting : Setting) (look : Bytes → Option Entry) : Command → Answer
  | .version => ⟨some 0, versionText, []⟩
  | .help => ⟨some 0, usageText, []⟩
  | .usageError => ⟨some 1, [], usageText⟩
  | .unknownOption a =>
    ⟨some 1, [], bytes "bella: unknown option " ++ Bytes.quoted a ++
      bytes "\nTry 'bella --help' for more information.\n"⟩
  | .file mode path =>
    match resolve look path with
    | some found => processFile setting mode look found
    | none => failure setting [] (bytes "Error: File not found: " ++ path)

end Command

end Treewalk
