/-
  Which files a line or a file may lead to.

  Evaluating a line reads files: those that a command names, those that the text includes, and
  those that these files include in turn.  The functions here list the names, so that the files can
  be put on a disk before the line is evaluated.
-/
import Pushdown.Disk.Edit
import Pushdown.Repl.CommandLine

namespace Pushdown

open Text (lit)

/-- The file name of a line that is an include directive. -/
def Scan.includeName? (s : Scan) : Option Text :=
  match s.next with
  | some (⟨.directive, text⟩, _) =>
    match Directive.parse text with
    | .ok (.includeFile name) => some name
    | _ => none
  | _ => none

/-- The names of the files that a text includes. -/
def Lexer.includeNames (t : Text) : List Text :=
  (Reader.lines (.empty []) { feed := .text t none }).filterMap fun l => Scan.includeName? ⟨l, true⟩

/-- A file that is going to be read. -/
inductive Mention where
  /-- A table, which leads to no other file. -/
  | table (name : Text)
  /-- Input, which may include other files. -/
  | source (name : Text)
  /-- A script of lines to evaluate. -/
  | script (name : Text)
  deriving DecidableEq, Repr

namespace Mention

/-- The name of the file. -/
def name : Mention → Text
  | .table n => n
  | .source n => n
  | .script n => n

/-- The files that a line leads to. -/
def ofLine (line : Text) : List Mention :=
  match Text.trim line with
  | b :: t =>
    if b = Text.byte ':' then
      match Text.words t with
      | command :: args =>
        if command = lit "table" then (args.take 1).map .table
        else if command = lit "file" then args.map .source
        else []
      | [] => []
    else (Lexer.includeNames (b :: t)).map .source
  | [] => []

/-- The files that a file with the given content leads to. -/
def ofContent (m : Mention) (content : Text) : List Mention :=
  match m with
  | .table _ => []
  | .source _ => (Lexer.includeNames content).map .source
  | .script _ => (Text.lines content).flatMap ofLine

/-- The files that the command line names. -/
def ofOptions (o : Options) : List Mention :=
  [.table o.table, .script o.script] ++ o.files.map .source

/-- The paths under which the file may be found: its name, and for input the name in the
    directories of the search path. -/
def candidates (m : Mention) (path : SearchPath) : List Text :=
  match m with
  | .source n => n :: path.map (Path.join · n)
  | m => [m.name]

end Mention
end Pushdown
