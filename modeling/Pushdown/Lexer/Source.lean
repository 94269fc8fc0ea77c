/-
  Sources: a reader with a display name and a line count.

  A file is opened when its first line is asked for; its identity is fixed when the source is
  made.  `#line` changes the name and the count, neither of which matters for reading.
-/
import Pushdown.Diagnostic
import Pushdown.Lexer.Lexeme
import Pushdown.Lexer.Reader

namespace Pushdown

/-- Where a source reads from: a path still to be opened, or a reader. -/
inductive Origin where
  | unopened (path : Text)
  | reading (reader : Reader)
  deriving DecidableEq, Repr

/-- A text producer together with its position. -/
structure Source where
  /-- The display name, possibly empty. -/
  name : Text
  /-- The number of the current line; zero before the first. -/
  line : Int64 := 0
  /-- The number of the next line to read. -/
  next : Int64 := 1
  origin : Origin
  /-- The identity of the file, if the source is one. -/
  key : Option Text := none
  /-- The current line, if it is not used up. -/
  scan : Option Scan := none
  deriving DecidableEq, Repr

namespace Source

/-- A source that reads from a feed. -/
def ofFeed (name : Text) (feed : Feed) : Source := { name, origin := .reading { feed } }

/-- A source that reads a text. -/
def ofText (name text : Text) : Source := ofFeed name (.text text none)

/-- A source that reads a text and then fails. -/
def ofFailing (name text message : Text) : Source := ofFeed name (.text text (some message))

/-- A source that reads chunks. -/
def ofPuller (name : Text) (p : Puller) : Source := ofFeed name (.chunks p [] false)

/-- The bytes that end a line. -/
def isBreak (b : UInt8) : Bool := b = 10 || b = 13 || b = 12

/-- A line with a line break: its own, or else a line feed. -/
def terminated (l : Text) : Text := if l.getLast?.any isBreak then l else l ++ [Text.newline]

/-- A source that reads a list of lines. -/
def ofLines (name : Text) (lines : List Text) : Source := ofText name (lines.flatMap terminated)

/-- A source that reads a file, which is opened later on. -/
def ofFile (d : Disk) (path : Text) : Source :=
  { name := path, origin := .unopened path, key := some (d.canonical path) }

/-- The display name and the number of the current line. -/
def location (s : Source) : Location := ⟨s.name, s.line⟩

/-- The outcome of asking a source for a line. -/
inductive Advance where
  /-- A line was read and is ready to be scanned. -/
  | line (s : Source)
  /-- Nothing is left. -/
  | exhausted (s : Source)
  /-- The file could not be opened. -/
  | unopenable (fault : Fault)
  /-- Reading failed. -/
  | unreadable (s : Source) (message : Text)

/-- Reads the next line with a reader. -/
def readLine (d : Disk) (s : Source) (r : Reader) : Advance :=
  match r.readLine d with
  | (.text t, r) =>
    .line { s with origin := .reading r, line := s.next, next := s.next + 1, scan := some ⟨t, true⟩ }
  | (.ended, r) => .exhausted { s with origin := .reading r }
  | (.failed m, r) => .unreadable { s with origin := .reading r } m

/-- Reads the next line, opening the file first if need be. -/
def advance (d : Disk) (s : Source) : Advance :=
  match s.origin with
  | .reading r => s.readLine d r
  | .unopened path =>
    match d.lookup path with
    | .ok node => s.readLine d { feed := .file path node 0 }
    | .error f => .unopenable f

end Source
end Pushdown
