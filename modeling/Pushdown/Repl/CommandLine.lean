/-
  The command line of the interpreter.

  Options start with one or two dashes and take a value, either behind an equals sign or as the
  next argument.  Options end at the first argument that is none, or behind a double dash.  Files
  that are named are processed; without files, lines are read from the input.
-/
import Pushdown.Repl.Session

namespace Pushdown

open Text (lit byte)
open Display (marked)

/-- What the command line asks for. -/
structure Options where
  /-- Directories to look for included files, separated by commas. -/
  includes : Text := []
  table : Text := []
  rule : Text := []
  /-- The initial script. -/
  script : Text := []
  files : List Text := []
  deriving DecidableEq, Repr

/-- Why a command line is refused. -/
inductive UsageError where
  /-- Help was asked for. -/
  | help
  | invalid
  deriving DecidableEq, Repr

/-- The outcome of the whole program. -/
structure Result where
  output : Text
  exitCode : Nat
  deriving DecidableEq, Repr

namespace CommandLine

/-- An argument that is an option: its name and the value behind an equals sign. -/
structure Flag where
  name : Text
  value : Option Text
  deriving DecidableEq, Repr

/-- How an argument counts. -/
inductive Argument where
  | flag (f : Flag)
  /-- The end of the options. -/
  | terminator
  /-- Not an option. -/
  | plain
  | malformed
  deriving DecidableEq, Repr

/-- The name and the value of an option, which follow the dashes. -/
def splitFlag (t : Text) : Flag :=
  let name := t.takeWhile (· ≠ byte '=')
  ⟨name, if name.length < t.length then some (t.drop (name.length + 1)) else none⟩

/-- The option behind one or two dashes. -/
def flagOf (t : Text) : Argument :=
  match t.head? with
  | none => .malformed
  | some b => if b = byte '-' ∨ b = byte '=' then .malformed else .flag (splitFlag t)

/-- How an argument counts. -/
def classify : Text → Argument
  | b :: c :: t =>
    if b ≠ byte '-' then .plain
    else if c ≠ byte '-' then flagOf (c :: t)
    else if t = [] then .terminator
    else flagOf t
  | _ => .plain

/-- The options with one of them set, unless its name is unknown. -/
def setOption (o : Options) (name value : Text) : Except UsageError Options :=
  if name = lit "I" then .ok { o with includes := value }
  else if name = lit "table" then .ok { o with table := value }
  else if name = lit "rule" then .ok { o with rule := value }
  else if name = lit "init" then .ok { o with script := value }
  else if name = lit "trace" then .ok o
  else if name = lit "help" ∨ name = lit "h" then .error .help
  else .error .invalid

/-- Reads the arguments. -/
def parse (o : Options) : List Text → Except UsageError Options
  | [] => .ok o
  | arg :: rest =>
    match classify arg with
    | .plain => .ok { o with files := arg :: rest }
    | .terminator => .ok { o with files := rest }
    | .malformed => .error .invalid
    | .flag ⟨name, some value⟩ =>
      match setOption o name value with
      | .ok o => parse o rest
      | .error e => .error e
    | .flag ⟨name, none⟩ =>
      match setOption o name [] with
      | .error e => .error e
      | .ok _ =>
        match rest with
        | [] => .error .invalid
        | value :: rest =>
          match setOption o name value with
          | .ok o => parse o rest
          | .error e => .error e

/-- What is shown first. -/
def welcome : Text := marked .info (lit "Welcome to FSMREPL")

/-- The search path of an option: directories separated by commas. -/
def searchPath (includes : Text) : SearchPath :=
  if includes = [] then [] else Text.splitAt (byte ',') includes

/-- The session that the options describe. -/
def session (d : Disk) (o : Options) : Except LoadError Session :=
  let s : Session := { rule := o.rule, path := searchPath o.includes }
  if o.table = [] then .ok s
  else (loadTable d o.table).map fun t => { s with table := some t }

/-- Runs the program on the arguments and the input. -/
def run (fuel : Nat) (d : Disk) (args : List Text) (input : Text) : Option Result :=
  match parse {} args with
  | .error .help => some ⟨[], 0⟩
  | .error .invalid => some ⟨[], 2⟩
  | .ok o =>
    match session d o with
    | .error e => some ⟨welcome ++ marked .error e.message, 2⟩
    | .ok s =>
      if o.files = [] then do
        let (out, s) ← s.loadScript fuel d o.script
        let (out', _) ← s.interact fuel d input
        return ⟨welcome ++ out ++ out', 0⟩
      else do
        let e ← s.run fuel d [] o.files
        return ⟨welcome ++ e.output, if e.error.isSome then 1 else 0⟩

end CommandLine
end Pushdown
