/-
  Interpreter sessions.

  A session has a table, a start rule and a search path.  A line of input is tokenized if there is
  no table and parsed otherwise; a line that starts with a colon is a command.  Evaluating a line
  yields what is shown and the session to go on with.
-/
import Pushdown.Lexer.Stream
import Pushdown.Lexer.Transcript
import Pushdown.Parser.Reduction
import Pushdown.Repl.Display
import Pushdown.Table.Reader

namespace Pushdown

open Text (lit)
open Display (Item Mark marked)

/-- Why a table could not be loaded. -/
inductive LoadError where
  | unopenable (path : Text) (fault : Fault)
  | unreadable (path : Text) (fault : Fault)
  | undecodable (e : DecodeError)
  | unbuildable (path : Text) (e : SpecError Reduction)
  deriving DecidableEq, Repr

/-- The text of a load error. -/
def LoadError.message : LoadError → Text
  | .unopenable path f => lit "open " ++ path ++ lit ": " ++ f.message
  | .unreadable path f =>
    lit "cannot decode state table: read " ++ path ++ lit ": " ++ f.message
  | .undecodable e => lit "cannot decode state table: " ++ e.message
  | .unbuildable path e => path ++ lit ": " ++ e.message

/-- Why a line was not carried out. -/
inductive EvalError where
  | unknownCommand (name : Text)
  | load (e : LoadError)
  | failure (e : Failure)
  deriving DecidableEq, Repr

/-- The text of an evaluation error. -/
def EvalError.message : EvalError → Text
  | .unknownCommand name => lit "unknown command :" ++ name
  | .load e => e.message
  | .failure e => e.message

/-- The state of an interpreter. -/
structure Session where
  table : Option (Table Reduction) := none
  rule : Text := []
  path : SearchPath := []

/-- The outcome of a line. -/
structure Evaluation where
  session : Session
  /-- Was the end of the session asked for? -/
  quit : Bool := false
  output : Text := []
  error : Option EvalError := none

/-- Loads a table from a file. -/
def loadTable (d : Disk) (path : Text) : Except LoadError (Table Reduction) :=
  match d.lookup path with
  | .error f => .error (.unopenable path f)
  | .ok node =>
    match d.content node with
    | .error f => .error (.unreadable path f)
    | .ok content =>
      match TableSpec.read content with
      | .error e => .error (.undecodable e)
      | .ok spec =>
        match spec.build Reduction.ofName? with
        | .error e => .error (.unbuildable path e)
        | .ok t => .ok t

namespace Session

/-! ## Showing values and tokens -/

/-- The label of a value.  A list is known by its length. -/
def label : Value → Text
  | .list vs => lit "list(" ++ Numeral.ofNat vs.length ++ lit ")"
  | .none => lit "nil"
  | .token t => t.display
  | .text t => t
  | .int n => Numeral.ofInt n

mutual

/-- Appends a value to the items of a tree: a list is a node above its elements.  The outermost call
    is always for level 0, and the level grows only where the value is nested: it is the number of
    lists around a value, which a machine word holds for every value that fits in memory. -/
def leveled : Value → Array Item → Int → Array Item
  | .list vs, items, level => leveledAll vs (items.push ⟨level, label (.list vs)⟩) (level + 1)
  | v, items, level => items.push ⟨level, label v⟩

/-- Appends values of one level to the items of a tree.  The level is the same for all of them:
    neighbours do not make it grow, so that the length of a list does not bear on its range. -/
def leveledAll : List Value → Array Item → Int → Array Item
  | [], items, _ => items
  | v :: vs, items, level => leveledAll vs (leveled v items level) level

end

/-- The label above the tokens of a source. -/
def sourceLabel (name : Text) : Text :=
  if name = [] then lit "input" else lit "source " ++ Text.quoted name

/-- Tokens with their locations as items of a tree.  Tokens stand below the label of their source,
    which is repeated whenever the source changes; `above` is the source of the last label. -/
def listing (above : Option Text) : List Sighting → List Item
  | [] => []
  | x :: rest =>
    let item : Item :=
      ⟨1, Text.padLeft 4 (Numeral.ofInt x.location.line.toInt) ++ lit "  " ++ x.token.display⟩
    if above = some x.location.name then item :: listing above rest
    else ⟨0, sourceLabel x.location.name⟩ :: item :: listing (some x.location.name) rest

/-! ## Running input -/

/-- What is shown of warnings. -/
def warnings (ws : List Diagnostic) : Text := ws.flatMap fun w => marked .warning w.display

/-- Lists the tokens of a lexer. -/
def listTokens (d : Disk) (l : Lexer) : Text × Option Failure :=
  let t := l.transcript d
  match t.error with
  | some e => (warnings t.warnings, some (.diagnostic e))
  | none =>
    (warnings t.warnings ++
      if t.tokens.isEmpty then marked .info (lit "no tokens")
      else Display.draw (listing none t.tokens), none)

/-- Parses a stream and shows the value. -/
def parseTokens (fuel : Nat) (table : Table Reduction) (rule : Text) (s : TokenStream) :
    Option (Text × Option Failure) :=
  match Parser.parse (some table) Reduction.apply fuel { source := s } rule with
  | none => none
  | some (.error e, la) => some (warnings la.source.warnings, some e)
  | some (.ok v, la) =>
    let (next, la) := la.peek
    let remaining := match next with
      | .ok t => if t.isEof then [] else marked .warning (lit "input remaining at " ++ t.display)
      | .error _ => []
    some (warnings la.source.warnings ++ remaining ++ Display.draw (leveled v #[] 0).toList, none)

/-- Processes a line of input, unless it is empty, and then files. -/
def run (fuel : Nat) (d : Disk) (s : Session) (input : Text) (files : List Text) :
    Option Evaluation :=
  let lexer : Lexer := { path := s.path, warnUnknown := true }
  let lexer := if input = [] then lexer else lexer.add (.ofText [] input)
  let lexer := lexer.addFiles d files
  let result := match s.table with
    | none => some (listTokens d lexer)
    | some table => parseTokens fuel table s.rule { disk := d, lexer }
  result.map fun
    | (output, none) => { session := s, output }
    | (output, some e) =>
      { session := s, output := output ++ marked .error e.message, error := some (.failure e) }

/-! ## Lines -/

/-- A line that fails without any other effect. -/
def fail (s : Session) (e : EvalError) : Evaluation :=
  { session := s, output := marked .error e.message, error := some e }

/-- Carries out a command, given as its words. -/
def command (fuel : Nat) (d : Disk) (s : Session) : List Text → Option Evaluation
  | [] => some { session := s }
  | name :: args =>
    if name = lit "quit" ∨ name = lit "q" then some { session := s, quit := true }
    else if name = lit "rule" then
      let s := { s with rule := args.head?.getD s.rule }
      some { session := s, output := marked .info (lit "start rule is " ++ Text.quoted s.rule) }
    else if name = lit "table" then
      match args with
      | [] => some { session := { s with table := none }, output := marked .info (lit "lexing only") }
      | path :: _ =>
        match loadTable d path with
        | .ok t => some { session := { s with table := some t } }
        | .error e => some (s.fail (.load e))
    else if name = lit "file" then s.run fuel d [] args
    else some (s.fail (.unknownCommand name))

/-- Evaluates a line. -/
def eval (fuel : Nat) (d : Disk) (s : Session) (line : Text) : Option Evaluation :=
  match line with
  | b :: t => if b = Text.byte ':' then s.command fuel d (Text.words t) else s.run fuel d line []
  | [] => s.run fuel d [] []

/-! ## Scripts -/

/-- Evaluates lines one after the other; lines without anything on them are skipped and errors
    stop nothing.  If `quits` is set, the rest is left when the end of the session is asked for. -/
def evalLines (fuel : Nat) (d : Disk) (quits : Bool) (s : Session) :
    List Text → Option (Text × Session)
  | [] => some ([], s)
  | line :: rest =>
    let line := Text.trim line
    if line = [] then evalLines fuel d quits s rest
    else match s.eval fuel d line with
      | none => none
      | some e =>
        if quits && e.quit then some (e.output, e.session)
        else (evalLines fuel d quits e.session rest).map fun (out, s) => (e.output ++ out, s)

/-- A line of an initial script is shorter than this; a longer one ends the script. -/
def maxScriptLine : Nat := 65536

/-- Evaluates the lines of a file; a file that cannot be read is passed over. -/
def loadScript (fuel : Nat) (d : Disk) (s : Session) (path : Text) : Option (Text × Session) :=
  if path = [] then some ([], s)
  else match d.lookup path with
    | .error _ => some ([], s)
    | .ok node =>
      match d.content node with
      | .error _ => some ([], s)
      | .ok content =>
        s.evalLines fuel d false ((Text.lines content).takeWhile (·.length < maxScriptLine))

/-- Evaluates the lines of an input until it ends or the end of the session is asked for.  Stray
    bytes of the input are replaced. -/
def interact (fuel : Nat) (d : Disk) (s : Session) (input : Text) : Option (Text × Session) :=
  s.evalLines fuel d true (Text.lines (Utf8.repaired input))

end Session
end Pushdown
