/-
  Locations and diagnostics.

  A diagnostic is shown on one line: the location, if there is something to show of it, then
  `Error` or `Warning`, then the message.  The name is left out if it is empty and the line
  number unless it is positive.  What went wrong is kept as a `Cause`, apart from the wording.
-/
import Pushdown.Text.Numeral

namespace Pushdown

/-- How serious a diagnostic is. -/
inductive Severity where
  | error
  | warning
  deriving DecidableEq, Repr

/-- The word shown for a severity. -/
def Severity.display : Severity → Text
  | .error => Text.lit "Error"
  | .warning => Text.lit "Warning"

/-- A position in the input: a display name, possibly empty, and a line number, where zero means
    that no line has been read.  Line numbers are 64-bit words and wrap around. -/
structure Location where
  name : Text := []
  line : Int64 := 0
  deriving DecidableEq, Repr, Inhabited

/-- The location as shown in front of a message. -/
def Location.display (loc : Location) : Text :=
  if 0 < loc.line then
    loc.name ++ Text.lit "(" ++ Numeral.ofInt loc.line.toInt ++ Text.lit ")"
  else loc.name

/-- Why reading the input failed. -/
inductive Cause where
  /-- An `#include` without a file name or a `#line` without a line number. -/
  | malformedDirective
  /-- A file was included that is still being read. -/
  | includeLoop
  /-- A file could not be opened. -/
  | sourceOpen
  /-- Any other failure, with its own text. -/
  | other (text : Text)
  deriving DecidableEq, Repr

/-- The text of a cause. -/
def Cause.message : Cause → Text
  | .malformedDirective => Text.lit "malformed directive"
  | .includeLoop => Text.lit "include loop"
  | .sourceOpen => Text.lit "cannot open source"
  | .other text => text

/-- A message tied to a location. -/
structure Diagnostic where
  severity : Severity
  location : Location
  message : Text
  cause : Option Cause := none
  deriving DecidableEq, Repr

namespace Diagnostic

/-- A diagnostic line.  It ends in a newline: that of the message, or else one of its own. -/
def format (severity : Severity) (location : Location) (message : Text) : Text :=
  let place := location.display
  (if place = [] then [] else place ++ Text.lit " ") ++ severity.display
    ++ (if message = [] then [] else Text.lit " " ++ message)
    ++ (if message.getLast? = some Text.newline then [] else [Text.newline])

/-- The diagnostic as a line. -/
def line (d : Diagnostic) : Text := format d.severity d.location d.message

/-- The diagnostic as a line, without the newline at its end. -/
def display (d : Diagnostic) : Text := Text.chomp d.line

end Diagnostic
end Pushdown
