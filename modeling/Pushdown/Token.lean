/-
  Tokens.

  A token has a kind, which is what state tables dispatch on, and a text.  The empty kind is
  reserved for the end of input.
-/
import Pushdown.Text.Quoted

namespace Pushdown

/-- A token of input.  For `0xAF` the kind is `NUM` and the text `175`. -/
structure Token where
  /-- The category of the token, matched against the keys of a state table. -/
  kind : Text
  /-- The canonical text. -/
  text : Text
  deriving DecidableEq, Repr, Inhabited

namespace Token

/-- The end of input. -/
def eof : Token := ⟨[], []⟩

/-- Does the token denote the end of input?  Only its kind counts. -/
def isEof (t : Token) : Bool := t.kind = []

/-- Tokens are ordered by kind, then by text. -/
def less (t u : Token) : Bool :=
  if t.kind = u.kind then decide (t.text < u.text) else decide (t.kind < u.kind)

/-- A token as shown in messages: `EOF`, the quoted text alone if it equals the kind, or both. -/
def display (t : Token) : Text :=
  if t.isEof then Text.lit "EOF"
  else if t.kind = t.text then Text.quoted t.text
  else t.kind ++ Text.lit "=" ++ Text.quoted t.text

/-- The token at the end of input is one. -/
@[simp] theorem isEof_eof : eof.isEof = true := rfl

end Token
end Pushdown
