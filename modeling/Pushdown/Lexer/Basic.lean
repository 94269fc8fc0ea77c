/-
  The lexer: tokens from a stack of sources.

  Sources that were added wait in a queue; the first of them is put on the stack when the stack is
  empty.  An `#include` puts a file on top of the source that includes it, and a source that is
  used up is taken off.  The identities of the files on the stack are kept in `opened`; a file that
  is on it cannot be included again.

  `step` does one small piece of work: it starts a source, reads a line, cuts off a lexeme or ends
  a line.  It either delivers an outcome or a lexer to go on with, and a warning at most.
-/
import Pushdown.Token
import Pushdown.Lexer.Directive
import Pushdown.Lexer.Literal
import Pushdown.Lexer.SearchPath
import Pushdown.Lexer.Source

namespace Pushdown

/-- A lexer over a stack of sources. -/
structure Lexer where
  /-- The active sources, innermost first. -/
  stack : List Source := []
  /-- Sources not yet started. -/
  pending : List Source := []
  /-- The identities of the files on the stack. -/
  opened : List Text := []
  /-- Where to look for included files. -/
  path : SearchPath := []
  /-- Is a directive with an unknown keyword worth a warning? -/
  warnUnknown : Bool := false
  /-- The location at the end of the source that was last taken off the stack. -/
  last : Location := {}
  deriving DecidableEq, Repr

namespace Lexer

open Text (lit)

/-! ## Input -/

/-- Adds a source behind those already waiting. -/
def add (l : Lexer) (s : Source) : Lexer := { l with pending := l.pending ++ [s] }

/-- Adds files behind the sources already waiting. -/
def addFiles (l : Lexer) (d : Disk) (paths : List Text) : Lexer :=
  paths.foldl (fun l p => l.add (.ofFile d p)) l

/-! ## The stack of sources -/

/-- The number of active sources. -/
def depth (l : Lexer) : Nat := l.stack.length

/-- The current location, or that of the end of the last source. -/
def location (l : Lexer) : Location :=
  match l.stack with
  | s :: _ => s.location
  | [] => l.last

/-- A set of identities with one more, if it is one. -/
def withKey (opened : List Text) : Option Text → List Text
  | some k => if k ∈ opened then opened else k :: opened
  | none => opened

/-- A set of identities with one less, if it is one. -/
def withoutKey (opened : List Text) : Option Text → List Text
  | some k => opened.filter (· ≠ k)
  | none => opened

/-- Puts a source on the stack. -/
def push (l : Lexer) (s : Source) : Lexer :=
  { l with stack := s :: l.stack, opened := withKey l.opened s.key }

/-- Takes the innermost source off the stack. -/
def pop (l : Lexer) : Lexer :=
  match l.stack with
  | s :: below =>
    { l with stack := below, opened := withoutKey l.opened s.key, last := s.location }
  | [] => l

/-- Takes all sources off the stack and forgets those that wait. -/
def close (l : Lexer) : Lexer :=
  { l.stack.foldl (fun l _ => l.pop) l with pending := [] }

/-- The lexer with another innermost source. -/
def withTop (l : Lexer) (s : Source) : Lexer := { l with stack := s :: l.stack.tail }

/-! ## Diagnostics -/

/-- An error at the current location. -/
def errorHere (l : Lexer) (message : Text) : Diagnostic := ⟨.error, l.location, message, none⟩

/-- A warning at the current location. -/
def warningHere (l : Lexer) (message : Text) : Diagnostic := ⟨.warning, l.location, message, none⟩

/-! ## Tokens -/

/-- What one piece of work leads to. -/
inductive Step where
  /-- Go on with a lexer; a warning may have been given. -/
  | more (l : Lexer) (warning : Option Diagnostic)
  /-- A token or an error, and the lexer after it. -/
  | done (outcome : Except Diagnostic Token) (l : Lexer)

/-- The kind of number literals. -/
def kindNumber : Text := lit "NUM"
/-- The kind of string literals. -/
def kindString : Text := lit "STR"
/-- The kind of names. -/
def kindName : Text := lit "NAME"

/-- The token of a lexeme that is no directive.  The kind of an operator or glyph is its text. -/
def token (x : Lexeme) : Except Text Token :=
  match x.kind with
  | .number =>
    match Literal.number? x.text with
    | some t => .ok ⟨kindNumber, t⟩
    | none => .error (lit "malformed number " ++ Text.quoted x.text)
  | .string => .ok ⟨kindString, Literal.unquote x.text⟩
  | .name => .ok ⟨kindName, x.text⟩
  | _ => .ok ⟨x.text, x.text⟩

/-- Puts an included file on the stack, unless it is on it already. -/
def includeFile (l : Lexer) (d : Disk) (name : Text) : Step :=
  let path := l.path.resolve d name
  let s := Source.ofFile d path
  if s.key.any (· ∈ l.opened) then
    .done (.error ⟨.error, l.location,
      lit "include loop: " ++ path ++ lit " is already open", some .includeLoop⟩) l
  else .more (l.push s) none

/-- Carries out a directive of the innermost source. -/
def directive (l : Lexer) (d : Disk) (s : Source) (text : Text) : Step :=
  match Directive.parse text with
  | .error e => .done (.error ⟨.error, l.location, e.message, some .malformedDirective⟩) l
  | .ok (.includeFile name) => l.includeFile d name
  | .ok (.lineNumber n name) =>
    let line := Int64.ofInt n
    .more (l.withTop { s with line, next := line, name := if name = [] then s.name else name }) none
  | .ok (.comment keyword) =>
    .more l (if l.warnUnknown && keyword ≠ [] then
      some (l.warningHere (lit "unknown directive #" ++ keyword)) else none)

/-- Reads the next line of the innermost source. -/
def advance (l : Lexer) (d : Disk) (s : Source) : Step :=
  match s.advance d with
  | .line s => .more (l.withTop s) none
  | .exhausted s => .more (l.withTop s).pop none
  | .unopenable f =>
    .done (.error ⟨.error, ⟨s.name, 0⟩, lit "open " ++ s.name ++ lit ": " ++ f.message,
      some .sourceOpen⟩) l.pop
  | .unreadable s m =>
    .done (.error ⟨.error, s.location, m, some (.other m)⟩) (l.withTop s).pop

/-- Cuts the next lexeme off the current line of the innermost source. -/
def cut (l : Lexer) (d : Disk) (s : Source) (scan : Scan) : Step :=
  match scan.next with
  | none => .more (l.withTop { s with scan := none }) none
  | some (x, rest) =>
    let s := { s with scan := some rest }
    let l := l.withTop s
    if x.kind = .directive then
      if scan.first then l.directive d s x.text else .more l none
    else match token x with
      | .ok t => .done (.ok t) l
      | .error m => .done (.error (l.errorHere m)) l

/-- One piece of work. -/
def step (d : Disk) (l : Lexer) : Step :=
  match l.stack with
  | [] =>
    match l.pending with
    | [] => .done (.ok .eof) l
    | s :: rest => .more ({ l with pending := rest }.push s) none
  | s :: _ =>
    match s.scan with
    | none => l.advance d s
    | some scan => l.cut d s scan

end Lexer
end Pushdown
