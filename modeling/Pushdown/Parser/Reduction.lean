/-
  The reductions that table descriptions can always name.
-/
import Pushdown.Parser.Basic

namespace Pushdown

open Text (lit)

/-- A reduction known by name. -/
inductive Reduction where
  /-- All values as a list. -/
  | list
  /-- The first value, if there is one. -/
  | first
  /-- The last value, if there is one. -/
  | last
  /-- No value. -/
  | none
  /-- The texts of all tokens, put together. -/
  | text
  /-- The number of the first token of kind `NUM`. -/
  | number
  deriving DecidableEq, Repr

namespace Reduction

/-- The reduction of a given name. -/
def ofName? (name : Text) : Option Reduction :=
  if name = lit "list" then some .list
  else if name = lit "first" then some .first
  else if name = lit "last" then some .last
  else if name = lit "none" then some .none
  else if name = lit "text" then some .text
  else if name = lit "number" then some .number
  else Option.none

/-- The text of a value that is a token. -/
def tokenText : Value → Text
  | .token t => t.text
  | _ => []

/-- The number token among the values that comes first. -/
def numberToken? (vs : List Value) : Option Token :=
  vs.findSome? fun
    | .token t => if t.kind = lit "NUM" then some t else Option.none
    | _ => Option.none

variable {σ : Type} [TokenSource σ]

/-- An error at the place where the token source stands. -/
def failHere (la : Lookahead σ) (message : Text) : Failure :=
  .diagnostic ⟨.error, la.location, message, Option.none⟩

/-- The number of the first number token, which has to fit into 64 bits. -/
def numberOf (la : Lookahead σ) (vs : List Value) : Except Failure Value :=
  match numberToken? vs with
  | Option.none => .error (failHere la (lit "number expected"))
  | some t =>
    match Numeral.int64? t.text with
    | some n => .ok (.int n)
    | Option.none => .error (failHere la (lit "number out of range: " ++ t.text))

/-- What a reduction does. -/
def apply : Reduction → Reduce σ
  | .list, la, vs => (.ok (.list vs), la)
  | .first, la, vs => (.ok (vs.head?.getD .none), la)
  | .last, la, vs => (.ok (vs.getLast?.getD .none), la)
  | .none, la, _ => (.ok .none, la)
  | .text, la, vs => (.ok (.text (vs.flatMap tokenText)), la)
  | .number, la, vs => (numberOf la vs, la)

end Reduction
end Pushdown
