/-
  Values that parsing yields, and the ways in which it fails.
-/
import Pushdown.Diagnostic
import Pushdown.Token

namespace Pushdown

open Text (lit)

/-- A value made by a reduction, or a token that was consumed. -/
inductive Value where
  /-- No value: it adds nothing to the calling rule. -/
  | none
  | token (t : Token)
  | list (vs : List Value)
  | text (t : Text)
  | int (n : Int)
  deriving Repr, Inhabited

/-- Is there no value? -/
def Value.isNone : Value → Bool
  | .none => true
  | _ => false

/-- A state without an entry for the token at hand. -/
structure Unexpected where
  /-- The state in which the parser got stuck. -/
  state : Int
  /-- The explicit keys of the state, in ascending order. -/
  expected : List Text
  /-- The offending token, or the end of input. -/
  found : Token
  location : Location
  deriving DecidableEq, Repr

namespace Unexpected

/-- A dispatch key as shown in messages. -/
def keyText (key : Text) : Text := if key = [] then lit "EOF" else key

/-- The message without the location. -/
def short (e : Unexpected) : Text :=
  match e.expected with
  | [] => lit "unexpected " ++ e.found.display
  | [k] => lit "expected " ++ keyText k ++ lit ", found " ++ e.found.display
  | ks =>
    lit "expected one of (" ++ Text.join (lit ", ") (ks.map keyText) ++ lit "), found "
      ++ e.found.display

/-- The message with the location. -/
def message (e : Unexpected) : Text := Text.chomp (Diagnostic.format .error e.location e.short)

end Unexpected

/-- Why parsing failed. -/
inductive Failure where
  | unexpected (e : Unexpected)
  /-- An error of the lexer, or of a reduction that tells where it happened. -/
  | diagnostic (d : Diagnostic)
  | unknownRule (rule : Text)
  | noStart
  /-- The parser has no table. -/
  | noTable
  /-- Any other error of a token source or a reduction. -/
  | other (message : Text)
  deriving DecidableEq, Repr

/-- The text of a failure. -/
def Failure.message : Failure → Text
  | .unexpected e => e.message
  | .diagnostic d => d.display
  | .unknownRule rule => lit "unknown rule: " ++ Text.quoted rule
  | .noStart => lit "no start state"
  | .noTable => lit "parser not initialized"
  | .other message => message

end Pushdown
