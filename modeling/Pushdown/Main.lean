/-
  The program: an interpreter for lines of input, or a batch run over files.

  Everything that decides anything is a function of a disk, the arguments and the input.  This
  module copies the files that are about to be read onto a disk, evaluates, and prints.
-/
import Pushdown.Repl.Mention

namespace Pushdown

/-- Parsing goes on for as many dispatches as it takes. -/
def endless : Nat := 1 <<< 62

/-- The text as a path of the system, if it is one. -/
def systemPath? (t : Text) : Option String := String.fromUTF8? ⟨t.toArray⟩

/-- The bytes of a string. -/
def textOf (s : String) : Text := s.toUTF8.toList

/-- Copies what is found under a path onto the disk.  A path that leads over links becomes a link
    to the resolved path.  The content is returned if it is a file. -/
def copyOne (d : Disk) (path : Text) : IO (Disk × Option Text) := do
  let some p := systemPath? path | return (d, none)
  try
    let real ← IO.FS.realPath p
    let target := textOf real.toString
    let here := d.absolute path
    if ← real.isDir then
      return (d.makeDirectory target, none)
    let content := (← IO.FS.readBinFile real).toList
    let d := d.write target content
    return (if target = here then d else d.makeLink here target, some content)
  catch _ => return (d, none)

/-- Copies mentioned files, and the files that they lead to, onto the disk. -/
partial def copyAll (path : SearchPath) (seen : List Mention) (d : Disk) : List Mention → IO Disk
  | [] => return d
  | m :: rest => do
    if seen.contains m || m.name.isEmpty then copyAll path seen d rest
    else
      let mut d := d
      let mut more : List Mention := []
      for p in m.candidates path do
        let (d', content?) ← copyOne d p
        d := d'
        if let some content := content? then more := more ++ m.ofContent content
      copyAll path (m :: seen) d (rest ++ more)

/-- A disk with the current directory of the system and the files that are mentioned. -/
def diskWith (path : SearchPath) (ms : List Mention) : IO Disk := do
  let cwd ← IO.FS.realPath (← IO.currentDir)
  copyAll path [] (.empty (Path.components (textOf cwd.toString))) ms

/-- Prints a text as it is. -/
def printText (t : Text) : IO Unit := do
  let out ← IO.getStdout
  out.write ⟨t.toArray⟩
  out.flush

/-- Reads a line of the standard input with its newline; `seen` holds the bytes read so far, last
    one first.  The line is empty at the end of the input. -/
partial def readInputLine (seen : Text) : IO Text := do
  match (← (← IO.getStdin).read 1).toList with
  | b :: _ => if b = Text.newline then return (b :: seen).reverse else readInputLine (b :: seen)
  | [] => return seen.reverse

/-- Evaluates lines of the standard input until it ends or the end of the session is asked for. -/
partial def converse (s : Session) : IO Unit := do
  let line ← readInputLine []
  if line.isEmpty then return
  let line := Text.trim (Utf8.repaired line)
  if line.isEmpty then converse s
  else
    let d ← diskWith s.path (Mention.ofLine line)
    match s.eval endless d line with
    | none => return
    | some e =>
      printText e.output
      if e.quit then return
      converse e.session

/-- Runs the program and returns its exit code. -/
def runProgram (args : List Text) : IO UInt32 := do
  match CommandLine.parse {} args with
  | .error .help => return 0
  | .error .invalid => return 2
  | .ok o =>
    let d ← diskWith (CommandLine.searchPath o.includes) (Mention.ofOptions o)
    match CommandLine.session d o, o.files with
    | .ok s, [] =>
      printText CommandLine.welcome
      let (out, s) := (s.loadScript endless d o.script).getD ([], s)
      printText out
      converse s
      return 0
    | _, _ =>
      match CommandLine.run endless d args [] with
      | none => return 1
      | some r =>
        printText r.output
        return r.exitCode.toUInt32

end Pushdown

/-- The entry point. -/
def main (args : List String) : IO UInt32 := Pushdown.runProgram (args.map Pushdown.textOf)
